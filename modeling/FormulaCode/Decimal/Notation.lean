import FormulaCode.Decimal.Shortest

namespace FormulaCode

namespace Decimal

-- The digits without the zeros at their end.
def significant (d : Decimal) : List Char :=
  ((Nat.toDigits 10 d.digits).reverse.dropWhile (· = '0')).reverse

-- The power of ten of the first digit.
def magnitude (d : Decimal) : Int :=
  d.exponent + (Nat.toDigits 10 d.digits).length - 1

def zeros (count : Nat) : List Char :=
  List.replicate count '0'

-- At least one digit on each side of the point.
def positional (d : Decimal) : List Char :=
  let digits := d.significant
  if d.magnitude < 0 then
    '0' :: '.' :: zeros ((-d.magnitude).toNat - 1) ++ digits
  else
    let width := d.magnitude.toNat + 1
    let fraction := digits.drop width
    digits.take width ++ zeros (width - digits.length) ++
      '.' :: (if fraction.isEmpty then ['0'] else fraction)

-- One digit before the point, and no point when no digit follows.
def scientific (d : Decimal) : List Char :=
  match d.significant with
  | [] => ['0']
  | first :: rest =>
      first :: (if rest.isEmpty then [] else '.' :: rest) ++ 'e' :: (toString d.magnitude).toList

-- Numbers from `1e-4` up to but not including `1e16` are written out in full.
def written (d : Decimal) : List Char :=
  if -4 ≤ d.magnitude && d.magnitude < 16 then d.positional else d.scientific

end Decimal

-- The text of a number: the fewest digits that read back, with a sign on the negative zero too.
def Binary64.text (x : Binary64) : String :=
  let sign := if x.negative then "-" else ""
  if x.isNaN then "NaN"
  else if x.isInfinite then sign ++ "inf"
  else if x.mantissa = 0 then sign ++ "0.0"
  else sign ++ String.ofList (Decimal.shortest x).written

end FormulaCode
