import FormulaCode.Decimal.Binary64

namespace FormulaCode

-- The number `digits * 10 ^ exponent`.
structure Decimal where
  digits : Nat
  exponent : Int
deriving DecidableEq, Repr

namespace Decimal

-- The decimal exponent of the fraction `num / den`: the power of ten at or below it.
def leadingExponent (num den : Nat) : Int :=
  let estimate : Int := (Nat.toDigits 10 num).length - (Nat.toDigits 10 den).length
  if den * Nat.pow 10 estimate.toNat ≤ num * Nat.pow 10 (-estimate).toNat then estimate else estimate - 1

-- The numbers that round to one floating-point number, all in units of `2 ^ exponent`. The
-- bounds themselves belong to the interval when `closed` is set.
structure Interval where
  lower : Nat
  value : Nat
  upper : Nat
  exponent : Int
  closed : Bool

-- Half a step to each side. Below a power of two the step is half as wide. The least normal
-- number has subnormals of its own step below it.
def Interval.of (x : Binary64) : Interval where
  lower := if x.fractionField = 0 && 1 < x.exponentField then 4 * x.mantissa - 1
    else 4 * x.mantissa - 2
  value := 4 * x.mantissa
  upper := 4 * x.mantissa + 2
  exponent := x.exponent - 2
  closed := x.mantissa % 2 = 0

def Interval.leadingExponent (i : Interval) : Int :=
  Decimal.leadingExponent (i.value * Nat.pow 2 i.exponent.toNat)
    (Nat.pow 2 (-i.exponent).toNat)

-- The point of the interval among the multiples of `10 ^ power` that is nearest to the value,
-- if there is one. Only the two neighbours of the value can be it. A tie goes up.
def Interval.nearest? (i : Interval) (power : Int) : Option Nat :=
  let unit := Nat.pow 10 power.toNat * Nat.pow 2 (-i.exponent).toNat
  let scale := Nat.pow 2 i.exponent.toNat * Nat.pow 10 (-power).toNat
  let value := i.value * scale
  let holds (n : Nat) : Bool :=
    if i.closed then i.lower * scale ≤ n * unit && n * unit ≤ i.upper * scale
    else i.lower * scale < n * unit && n * unit < i.upper * scale
  let below := value / unit
  let above := below + 1
  match holds below, holds above with
  | true, true => some (if value - below * unit < above * unit - value then below else above)
  | true, false => some below
  | false, true => some above
  | false, false => none

-- The fewest digits that read back as the number. Seventeen always do.
def shortest (x : Binary64) : Decimal :=
  let i := Interval.of x
  let found := (List.range 17).findSome? fun (n : Nat) =>
    let power := i.leadingExponent - n
    (i.nearest? power).map fun digits => ⟨digits, power⟩
  found.getD ⟨0, 0⟩

end Decimal

end FormulaCode
