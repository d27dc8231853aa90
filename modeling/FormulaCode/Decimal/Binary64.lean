namespace FormulaCode

-- A floating-point number of 64 bits, held as its bits. Two numbers are the same when all
-- their bits are, which keeps the two zeros and the payloads of NaN apart.
structure Binary64 where
  bits : UInt64
deriving DecidableEq, Repr

namespace Binary64

def ofFloat (value : Float) : Binary64 :=
  ⟨value.toBits⟩

def negative (x : Binary64) : Bool :=
  0x8000000000000000 ≤ x.bits.toNat

def exponentField (x : Binary64) : Nat :=
  x.bits.toNat / 0x10000000000000 % 0x800

def fractionField (x : Binary64) : Nat :=
  x.bits.toNat % 0x10000000000000

def isNaN (x : Binary64) : Bool :=
  x.exponentField = 2047 && x.fractionField ≠ 0

def isInfinite (x : Binary64) : Bool :=
  x.exponentField = 2047 && x.fractionField = 0

-- A finite number is its sign times `mantissa * 2 ^ exponent`. The field 0 holds the
-- subnormals, which have the exponent of the field 1 and no leading bit.
def mantissa (x : Binary64) : Nat :=
  if x.exponentField = 0 then x.fractionField else x.fractionField + 0x10000000000000

def exponent (x : Binary64) : Int :=
  (max x.exponentField 1 : Nat) - 1075

end Binary64

end FormulaCode
