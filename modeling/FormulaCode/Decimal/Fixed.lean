import FormulaCode.Decimal.Binary64

namespace FormulaCode

-- The integer nearest to `num / den`. A half goes to the even neighbour.
def roundDiv (num den : Nat) : Nat :=
  let floor := num / den
  let twice := 2 * (num % den)
  if twice < den then floor
  else if den < twice then floor + 1
  else floor + floor % 2

-- One decimal place, taken from the exact binary value. The sign is left out.
def Binary64.oneDecimal (x : Binary64) : String :=
  let tenths := roundDiv (10 * x.mantissa * Nat.pow 2 x.exponent.toNat)
    (Nat.pow 2 (-x.exponent).toNat)
  toString (tenths / 10) ++ "." ++ toString (tenths % 10)

-- A part of a whole in percent.
def percentage (part whole : Nat) : Binary64 :=
  Binary64.ofFloat (part.toFloat / whole.toFloat * 100)

end FormulaCode
