import FormulaCode.Wire.Reader

namespace FormulaCode.Wire

-- The widths of numbers on the wire.
inductive Width where
  | word16
  | word32
  | word64
deriving DecidableEq, Repr

def Width.bits : Width → Nat
  | word16 => 16
  | word32 => 32
  | word64 => 64

-- Seven bits go into a byte.
def Width.maxBytes : Width → Nat
  | word16 => 3
  | word32 => 5
  | word64 => 10

-- The greatest last byte of a number that takes all its bytes.
def Width.lastByte : Width → UInt8
  | word16 => 3
  | word32 => 15
  | word64 => 1

-- A number is written seven bits at a time, the lowest first. The high bit of a byte says that
-- more follow.
def writeVarint (n : Nat) : List UInt8 :=
  if n < 128 then [n.toUInt8] else (n % 128 + 128).toUInt8 :: writeVarint (n / 128)
termination_by n

def readVarintBytes (last : UInt8) : Nat → Reader Nat
  | 0 => throw .badVarint
  | count + 1 => do
      let byte ← readByte
      if byte < 128 then
        if count = 0 ∧ last < byte then throw .badVarint else return byte.toNat
      else
        let high ← readVarintBytes last count
        return byte.toNat - 128 + 128 * high

def readVarint (width : Width) : Reader Nat :=
  readVarintBytes width.lastByte width.maxBytes

-- One of a list of values, by its index.
def readChoice (choices : List α) : Reader α := do
  let index ← readVarint .word32
  match choices[index]? with
  | some choice => return choice
  | none => throw .badIndex

def writeText (text : String) : List UInt8 :=
  let bytes := toBytes text.toList
  writeVarint bytes.length ++ bytes

-- The length is checked before the bytes are.
def readText : Reader String := do
  let count ← readVarint .word64
  let bytes ← readBytes count
  match ofBytes? bytes with
  | some text => return String.ofList text
  | none => throw .badText

-- Eight bytes, the lowest first.
def writeWord64 (word : UInt64) : List UInt8 :=
  (List.range 8).map fun i => (word.toNat / Nat.pow 256 i).toUInt8

def readWord64 : Reader UInt64 := do
  let bytes ← readBytes 8
  return (bytes.foldr (fun (byte : UInt8) high => byte.toNat + 256 * high) 0).toUInt64

end FormulaCode.Wire
