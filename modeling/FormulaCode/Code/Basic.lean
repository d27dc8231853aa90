import FormulaCode.Code.Record

namespace FormulaCode

-- A list of records. A place in it is the index of a record.
structure Code where
  records : Array Record
deriving DecidableEq, Repr

namespace Code

def size (code : Code) : Nat :=
  code.records.size

def instr? (code : Code) (index : Nat) : Option Instr :=
  match code.records[index]? with
  | some (.instr instr) => some instr
  | _ => none

-- Puts another operation into the instruction at a place. Nothing changes if there is none.
def setOp (code : Code) (index : Nat) (op : Op) : Code :=
  match code.instr? index with
  | some instr => ⟨code.records.setIfInBounds index (.instr { instr with op })⟩
  | none => code

theorem lt_size_of_instr? {code : Code} {index : Nat} {instr : Instr}
    (h : code.instr? index = some instr) : index < code.size := by
  unfold instr? at h
  split at h
  · next he => exact (Array.getElem?_eq_some_iff.mp he).1
  · cases h

-- The instructions from a place on, each reached from the one before it by its length alone.
-- The walk ends at the first record that is no instruction.
def walkFrom (code : Code) (index : Nat) : List (Nat × Instr) :=
  match h : code.instr? index with
  | none => []
  | some instr =>
      have := lt_size_of_instr? h
      if instr.len = 0 then [] else (index, instr) :: code.walkFrom (index + instr.len)
termination_by code.size - index

def walk (code : Code) : List (Nat × Instr) :=
  code.walkFrom 0

-- The same walk where a place has 32 bits. It comes to nothing if an instruction ends beyond them.
def walkFrom? (code : Code) (index : Nat) : Option (List (Nat × Instr)) :=
  match h : code.instr? index with
  | none => some []
  | some instr =>
      have := lt_size_of_instr? h
      if instr.len = 0 then some []
      else if UInt32.size ≤ index + instr.len then none
      else (code.walkFrom? (index + instr.len)).map ((index, instr) :: ·)
termination_by code.size - index

def walk? (code : Code) : Option (List (Nat × Instr)) :=
  code.walkFrom? 0

-- The text behind an instruction, in the records that its length covers.
def textAt? (code : Code) (index : Nat) : Option (List Char) := do
  let instr ← code.instr? index
  if instr.len = 0 ∨ code.size < index + instr.len then none
  else payloadText? (code.records.extract (index + 1) (index + instr.len)).toList

end Code

end FormulaCode
