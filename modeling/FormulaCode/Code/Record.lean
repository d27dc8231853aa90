import FormulaCode.Code.Op
import FormulaCode.Text.Bytes

namespace FormulaCode

-- The bytes of a text that one record holds.
abbrev Chunk := Vector UInt8 8

-- The head of an instruction: the number of records it takes, itself included, and the byte
-- offset in the formula that it comes from. Only 32 bits are kept of the offset.
structure Instr where
  op : Op
  len : Nat
  pos : UInt32
deriving DecidableEq, Repr

-- The unit of code. The text of an instruction follows its head, ended by a zero byte.
inductive Record where
  | instr (instr : Instr)
  | text (chunk : Chunk)
deriving DecidableEq, Repr

def Chunk.ofBytes (bytes : List UInt8) : Chunk :=
  Vector.ofFn fun i => bytes.getD i 0

def chunks (bytes : List UInt8) : List Chunk :=
  if bytes.isEmpty then [] else Chunk.ofBytes (bytes.take 8) :: chunks (bytes.drop 8)
termination_by bytes.length
decreasing_by
  rename_i h
  have hne : bytes ≠ [] := by simpa using h
  have := List.length_pos_iff.mpr hne
  simp only [List.length_drop]
  omega

-- The chunks of a text and its final zero. The last one is filled up with zeros.
def textChunks (text : List Char) : List Chunk :=
  chunks (toBytes text ++ [0])

-- The bytes before the first zero, if there is a zero before the records end or an instruction
-- begins.
def payloadBytes? : List Record → Option (List UInt8)
  | [] => none
  | .instr _ :: _ => none
  | .text chunk :: rest =>
      let bytes := chunk.toList
      if bytes.contains 0 then some (bytes.takeWhile (· ≠ 0))
      else (payloadBytes? rest).map (bytes ++ ·)

def payloadText? (records : List Record) : Option (List Char) :=
  (payloadBytes? records).bind ofBytes?

end FormulaCode
