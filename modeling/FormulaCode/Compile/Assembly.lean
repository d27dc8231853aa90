import FormulaCode.Compile.Error

namespace FormulaCode

-- Code in the making, and the place of its last instruction. No last instruction is kept behind
-- a ternary operator, whose value comes from two places.
structure Assembly where
  code : Code
  last : Option Nat
deriving DecidableEq, Repr

namespace Assembly

def empty : Assembly :=
  ⟨⟨#[]⟩, none⟩

-- Adds an instruction with the records behind it.
def append (limit : Nat) (a : Assembly) (records : List Record) (pos : Nat) :
    Except CompileError Assembly :=
  if limit < a.code.size + records.length then .error ⟨pos, .overflow .records limit⟩
  else .ok ⟨⟨a.code.records ++ records⟩, some a.code.size⟩

def emit (limit : Nat) (a : Assembly) (op : Op) (pos : Nat) : Except CompileError Assembly :=
  a.append limit [.instr ⟨op, 1, .ofNat pos⟩] pos

def emitText (limit : Nat) (a : Assembly) (op : Op) (text : List Char) (pos : Nat) :
    Except CompileError Assembly :=
  let chunks := textChunks text
  a.append limit (.instr ⟨op, 1 + chunks.length, .ofNat pos⟩ :: chunks.map .text) pos

-- Lets the branch at a place jump to the end of the code.
def patch (a : Assembly) (index : Nat) : Except CompileError Assembly :=
  match a.code.instr? index with
  | none => .error ⟨0, .breach (.nothingToPatch index)⟩
  | some instr => match instr.op.withTarget? a.code.size with
      | some op => .ok { a with code := a.code.setOp index op }
      | none => .error ⟨instr.pos.toNat, .breach (.notABranch instr.op)⟩

-- Turns the last instruction into one that leaves a place to assign to. `pos` is the operator
-- that needs the place.
def pointerize (a : Assembly) (pos : Nat) : Except CompileError Assembly :=
  match a.last with
  | none => .error ⟨pos, .fault .notAssignable⟩
  | some index => match a.code.instr? index with
      | none => .error ⟨pos, .breach .lastOutOfRange⟩
      | some instr => match instr.op.pointerForm?, instr.op with
          | some pointer, _ => .ok { a with code := a.code.setOp index pointer }
          | none, .sliceValue _ => .error ⟨pos, .fault .noLowerBound⟩
          | none, _ => .error ⟨pos, .fault .notAssignable⟩

end Assembly

end FormulaCode
