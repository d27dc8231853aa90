import FormulaCode.Decimal.Binary64

namespace FormulaCode

-- A scanner looks for a number at the start of a text and answers with its value and the
-- number of characters it takes. Signs belong to operators and are never taken.
abbrev NumberScanner := List Char → Option (Binary64 × Nat)

structure Exponent where
  mark : Char
  sign : Option Char
  digits : List Char
deriving DecidableEq

-- A number as it is spelled. The fraction is `none` when there is no point.
inductive Numeral where
  | hexadecimal (digits : List Char)
  | decimal (whole : List Char) (fraction : Option (List Char)) (exponent : Option Exponent)
deriving DecidableEq

def isHexDigit (c : Char) : Bool :=
  c.isDigit || ('a' ≤ c && c ≤ 'f') || ('A' ≤ c && c ≤ 'F')

def digitValue (c : Char) : Nat :=
  if c.isDigit then c.toNat - '0'.toNat
  else if 'a' ≤ c then c.toNat - 'a'.toNat + 10
  else c.toNat - 'A'.toNat + 10

def digitsValue (digits : List Char) : Nat :=
  digits.foldl (fun sum c => sum * 10 + digitValue c) 0

-- The number `digits * 10 ^ exponent`, correctly rounded. Beyond four hundred places from the
-- point every number is infinite or zero, and the power of ten is not worked out.
def Binary64.ofDecimal (digits : Nat) (exponent : Int) : Binary64 :=
  let places := (Nat.toDigits 10 digits).length + exponent
  if digits = 0 || places < -400 then ofFloat 0
  else if 400 < places then ⟨0x7FF0000000000000⟩
  else ofFloat (Float.ofScientific digits (exponent < 0) exponent.natAbs)

namespace Exponent

def spelling (e : Exponent) : List Char :=
  e.mark :: e.sign.toList ++ e.digits

def value (e : Exponent) : Int :=
  if e.sign = some '-' then -digitsValue e.digits else digitsValue e.digits

-- An exponent counts only if digits follow its mark.
def scan : List Char → Option Exponent
  | [] => none
  | mark :: rest =>
      let sign := rest.head?.filter fun c => c = '+' || c = '-'
      let digits := (rest.drop sign.toList.length).takeWhile Char.isDigit
      if (mark = 'e' || mark = 'E') && !digits.isEmpty then some ⟨mark, sign, digits⟩ else none

end Exponent

namespace Numeral

def spelling : Numeral → List Char
  | hexadecimal digits => '0' :: 'x' :: digits
  | decimal whole fraction exponent =>
      whole ++ (fraction.map ('.' :: ·)).getD [] ++ (exponent.map Exponent.spelling).getD []

-- The digits of a hexadecimal number are added one by one, and the sum is rounded each time.
def value : Numeral → Binary64
  | hexadecimal digits =>
      .ofFloat (digits.foldl (fun sum c => sum * 16 + (digitValue c).toFloat) 0)
  | decimal whole fraction exponent =>
      let places := fraction.getD []
      .ofDecimal (digitsValue (whole ++ places))
        ((exponent.map Exponent.value).getD 0 - places.length)

def scanHexadecimal : List Char → Option Numeral
  | '0' :: 'x' :: rest =>
      let digits := rest.takeWhile isHexDigit
      if digits.isEmpty then none else some (hexadecimal digits)
  | _ => none

-- Digits with at most one point among them, before or after it. A point alone is no number.
def scanDecimal (text : List Char) : Option Numeral :=
  let whole := text.takeWhile Char.isDigit
  let afterWhole := text.dropWhile Char.isDigit
  let (fraction, afterFraction) := match afterWhole with
    | '.' :: rest => (some (rest.takeWhile Char.isDigit), rest.dropWhile Char.isDigit)
    | _ => (none, afterWhole)
  if whole.isEmpty && (fraction.getD []).isEmpty then none
  else some (decimal whole fraction (Exponent.scan afterFraction))

def scan (text : List Char) : Option Numeral :=
  (scanHexadecimal text).or (scanDecimal text)

end Numeral

-- Decimal numbers such as `12`, `1.5`, `.5`, `2.` and `6.02e23`, and hexadecimal integers such
-- as `0x1F`.
def scanNumber : NumberScanner := fun text =>
  (Numeral.scan text).map fun numeral => (numeral.value, numeral.spelling.length)

end FormulaCode
