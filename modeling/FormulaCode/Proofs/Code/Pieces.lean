import FormulaCode.Proofs.Code.Layout
import FormulaCode.Proofs.Code.Threading

namespace FormulaCode

def Operator.steps : List Operator :=
  [postDecrement, postIncrement, preDecrement, preIncrement]

-- The operations that can be told from their texts in a listing: a number is one, and a step is a
-- step.
def Op.IsLegible : Op → Prop
  | pushNumber value => value.isNaN = false
  | incDec op => op ∈ Operator.steps
  | _ => True

theorem Op.isLegible_of_isBranch {op : Op} (h : op.isBranch = true) : op.IsLegible := by
  cases op with
  | branchIfFalse | branchIfTrue | goto => trivial
  | _ => cases h

theorem Op.isLegible_of_pointerForm? {op pointer : Op} (h : op.pointerForm? = some pointer) :
    pointer.IsLegible := by
  cases op with
  | lookupValue | derefValue =>
      cases h
      trivial
  | sliceValue shape =>
      simp only [pointerForm?, Option.ite_none_right_eq_some] at h
      cases h.2
      trivial
  | _ => cases h

-- An instruction with the text that it carries, wherever it stands. The text counts only for those
-- that name something.
structure Piece where
  op : Op
  text : List Char
  pos : UInt32

namespace Piece

def chunks (piece : Piece) : List Chunk :=
  if piece.op.hasText then textChunks piece.text else []

def head (piece : Piece) : Instr :=
  ⟨piece.op, 1 + piece.chunks.length, piece.pos⟩

def records (piece : Piece) : List Record :=
  Code.block piece.head piece.chunks

-- A text with a zero in it would end early.
structure Legible (piece : Piece) : Prop where
  text : '\x00' ∉ piece.text
  op : piece.op.IsLegible

theorem length_records (piece : Piece) : piece.records.length = piece.head.len := by
  rw [records, Code.block, List.length_cons, List.length_map, head, Nat.add_comm]

theorem len_pos (piece : Piece) : 0 < piece.head.len :=
  Nat.lt_of_lt_of_le Nat.zero_lt_one (Nat.le_add_right _ _)

-- Only the first record of a piece is an instruction.
theorem getElem?_records {piece : Piece} {index : Nat} {instr : Instr}
    (h : piece.records[index]? = some (.instr instr)) : index = 0 ∧ instr = piece.head := by
  cases index with
  | zero =>
      rw [records, Code.block, List.getElem?_cons_zero, Option.some.injEq, Record.instr.injEq] at h
      exact ⟨rfl, h.symm⟩
  | succ index =>
      rw [records, Code.block, List.getElem?_cons_succ, List.getElem?_map, Option.map_eq_some_iff] at h
      obtain ⟨chunk, -, h⟩ := h
      cases h

theorem chunks_setOp {piece : Piece} {op : Op} (h : op.hasText = piece.op.hasText) :
    ({ piece with op } : Piece).chunks = piece.chunks := by
  simp only [chunks, h]

end Piece

def recordsOf (pieces : List Piece) : List Record :=
  pieces.flatMap Piece.records

theorem recordsOf_cons (piece : Piece) (rest : List Piece) :
    recordsOf (piece :: rest) = piece.records ++ recordsOf rest :=
  List.flatMap_cons

-- Another operation in an instruction is another operation in its piece.
theorem exists_recordsOf_set {pieces : List Piece} {index : Nat} {instr : Instr} {op : Op}
    (hinstr : (recordsOf pieces)[index]? = some (.instr instr))
    (htext : op.hasText = instr.op.hasText) :
    ∃ before piece after, pieces = before ++ piece :: after ∧
      (recordsOf pieces).set index (.instr { instr with op }) =
        recordsOf (before ++ { piece with op } :: after) := by
  induction pieces generalizing index with
  | nil => cases hinstr
  | cons piece rest ih =>
      rw [recordsOf_cons] at hinstr ⊢
      by_cases hlt : index < piece.records.length
      · rw [List.getElem?_append_left hlt] at hinstr
        obtain ⟨rfl, rfl⟩ := Piece.getElem?_records hinstr
        refine ⟨[], piece, rest, rfl, ?_⟩
        rw [List.set_append_left _ _ hlt, List.nil_append, recordsOf_cons]
        simp only [Piece.records, Piece.head, Piece.chunks_setOp htext, Code.block,
          List.set_cons_zero]
      · have hle := Nat.le_of_not_lt hlt
        rw [List.getElem?_append_right hle] at hinstr
        obtain ⟨before, found, after, rfl, hset⟩ := ih hinstr
        refine ⟨piece :: before, found, after, rfl, ?_⟩
        rw [List.set_append_right _ _ hle, hset, List.cons_append, recordsOf_cons]

namespace Code

-- Code that is put together of pieces that can be told apart.
def IsLegible (code : Code) : Prop :=
  ∃ pieces, (∀ piece ∈ pieces, piece.Legible) ∧ code.records.toList = recordsOf pieces

theorem isLegible_empty : IsLegible ⟨#[]⟩ :=
  ⟨[], List.forall_mem_nil _, rfl⟩

theorem IsLegible.append {code : Code} (h : code.IsLegible) {piece : Piece} (hpiece : piece.Legible) :
    IsLegible ⟨code.records ++ piece.records⟩ := by
  obtain ⟨pieces, hpieces, hrecords⟩ := h
  refine ⟨pieces ++ [piece], ?_, ?_⟩
  · rw [List.forall_mem_append, List.forall_mem_singleton]
    exact ⟨hpieces, hpiece⟩
  · rw [Array.toList_appendList, hrecords]
    simp [recordsOf]

theorem IsLegible.setOp {code : Code} (h : code.IsLegible) {index : Nat} {instr : Instr} {op : Op}
    (hinstr : code.instr? index = some instr) (htext : op.hasText = instr.op.hasText)
    (hop : op.IsLegible) : (code.setOp index op).IsLegible := by
  obtain ⟨pieces, hpieces, hrecords⟩ := h
  have hget : (recordsOf pieces)[index]? = some (.instr instr) := by
    rw [← hrecords, Array.getElem?_toList]
    exact instr?_eq_some_iff.mp hinstr
  obtain ⟨before, piece, after, rfl, hset⟩ := exists_recordsOf_set hget htext
  refine ⟨before ++ { piece with op } :: after, ?_, ?_⟩
  · simp only [List.forall_mem_append, List.forall_mem_cons] at hpieces ⊢
    obtain ⟨hbefore, hpiece, hafter⟩ := hpieces
    exact ⟨hbefore, ⟨hpiece.text, hop⟩, hafter⟩
  · rw [setOp_of_instr? op hinstr, Array.toList_setIfInBounds, hrecords, hset]

theorem IsLegible.withTarget {code : Code} (h : code.IsLegible) {index target : Nat} {instr : Instr}
    {op : Op} (hinstr : code.instr? index = some instr)
    (hop : instr.op.withTarget? target = some op) : (code.setOp index op).IsLegible := by
  obtain ⟨-, hbranch, -, -, -, -, -, htext⟩ := Op.withTarget?_eq_some hop
  exact h.setOp hinstr htext (Op.isLegible_of_isBranch hbranch)

theorem IsLegible.thread {code : Code} (h : code.IsLegible) : code.thread.1.IsLegible := by
  refine thread_induction (motive := IsLegible) ?_ code h
  intro code index next hlegible hnext
  obtain ⟨jump, -, -, op, hjump, -, -, -, -, -, hop, heq⟩ := shortcut?_eq_some hnext
  rw [heq]
  exact hlegible.withTarget hjump hop

end Code

end FormulaCode
