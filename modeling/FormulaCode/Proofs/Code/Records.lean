import FormulaCode.Proofs.Code.Payload
import Mathlib.Logic.Function.Basic

namespace FormulaCode

-- A text ends before the first instruction, so the operations of instructions cannot change it.
theorem payloadBytes?_set (records : List Record) (index : Nat) (old new : Instr)
    (h : records[index]? = some (.instr old)) :
    payloadBytes? (records.set index (.instr new)) = payloadBytes? records := by
  induction records generalizing index with
  | nil => rfl
  | cons record rest ih =>
      cases index with
      | zero =>
          simp only [List.getElem?_cons_zero, Option.some.injEq] at h
          subst h
          rfl
      | succ index =>
          simp only [List.getElem?_cons_succ] at h
          cases record with
          | instr instr => rfl
          | text chunk => simp only [List.set_cons_succ, payloadBytes?, ih index h]

-- The instruction at a place when another operation is put into the one at a given place.
def Instr.setOpAt (place : Nat) (op : Op) (index : Nat) (instr : Instr) : Instr :=
  if index = place then { instr with op } else instr

@[simp] theorem Instr.len_setOpAt (place : Nat) (op : Op) (index : Nat) (instr : Instr) :
    (instr.setOpAt place op index).len = instr.len := by
  unfold setOpAt
  split <;> rfl

namespace Code

theorem instr?_eq_some_iff {code : Code} {index : Nat} {instr : Instr} :
    code.instr? index = some instr ↔ code.records[index]? = some (.instr instr) := by
  unfold instr?
  split
  · next found he => simp [he]
  · next hne =>
      constructor
      · intro h; cases h
      · intro h; exact absurd h (hne instr)

@[simp] theorem size_setOp (code : Code) (index : Nat) (op : Op) :
    (code.setOp index op).size = code.size := by
  unfold setOp
  split <;> simp [size]

theorem setOp_of_instr? {code : Code} {index : Nat} {instr : Instr} (op : Op)
    (h : code.instr? index = some instr) :
    code.setOp index op = ⟨code.records.setIfInBounds index (.instr { instr with op })⟩ := by
  simp [setOp, h]

theorem instr?_setOp_self {code : Code} {index : Nat} {instr : Instr} (op : Op)
    (h : code.instr? index = some instr) :
    (code.setOp index op).instr? index = some { instr with op } := by
  have hlt := lt_size_of_instr? h
  rw [setOp_of_instr? op h, instr?_eq_some_iff]
  simp [show index < code.records.size from hlt]

theorem instr?_setOp_of_ne (code : Code) {index other : Nat} (op : Op) (h : other ≠ index) :
    (code.setOp index op).instr? other = code.instr? other := by
  unfold setOp
  split
  · simp [instr?, h.symm]
  · rfl

theorem instr?_setOp_eq (code : Code) (place : Nat) (op : Op) (index : Nat) :
    (code.setOp place op).instr? index = (code.instr? index).map (Instr.setOpAt place op index) := by
  by_cases he : index = place
  · subst he
    cases hold : code.instr? index with
    | none => simp [setOp, hold]
    | some old => simp [instr?_setOp_self op hold, Instr.setOpAt]
  · have hid : Instr.setOpAt place op index = id := by
      funext instr
      simp [Instr.setOpAt, he]
    rw [instr?_setOp_of_ne code op he, hid, Option.map_id, id]

-- The instruction at a place keeps its length and its origin when its operation changes.
theorem instr?_setOp {code : Code} {index other : Nat} {op : Op} {instr : Instr}
    (h : (code.setOp index op).instr? other = some instr) :
    ∃ old, code.instr? other = some old ∧ instr.len = old.len ∧ instr.pos = old.pos ∧
      (other ≠ index → instr = old) ∧ (other = index → instr.op = op) := by
  by_cases he : other = index
  · subst he
    cases hold : code.instr? other with
    | none => simp [setOp, hold] at h
    | some old =>
        rw [instr?_setOp_self op hold, Option.some.injEq] at h
        subst h
        exact ⟨old, rfl, rfl, rfl, fun hne => absurd rfl hne, fun _ => rfl⟩
  · rw [instr?_setOp_of_ne code op he] at h
    exact ⟨instr, h, rfl, rfl, fun _ => rfl, fun heq => absurd heq he⟩

theorem isSome_instr?_setOp (code : Code) (index other : Nat) (op : Op) :
    ((code.setOp index op).instr? other).isSome = (code.instr? other).isSome := by
  by_cases he : other = index
  · subst he
    cases hold : code.instr? other with
    | none => simp [setOp, hold]
    | some old => simp [instr?_setOp_self op hold]
  · rw [instr?_setOp_of_ne code op he]

theorem textAt?_of_instr? {code : Code} {index : Nat} {instr : Instr}
    (h : code.instr? index = some instr) :
    code.textAt? index = if instr.len = 0 ∨ code.size < index + instr.len then none
      else payloadText? ((code.records.toList.take (index + instr.len)).drop (index + 1)) := by
  simp [textAt?, h, List.drop_take]

theorem textAt?_setOp {code : Code} {index : Nat} {instr : Instr} (op : Op) (other : Nat)
    (h : code.instr? index = some instr) :
    (code.setOp index op).textAt? other = code.textAt? other := by
  cases hother : code.instr? other with
  | none =>
      have hnone : (code.setOp index op).instr? other = none := by
        rw [← Option.not_isSome_iff_eq_none, isSome_instr?_setOp, hother]
        simp
      simp [textAt?, hother, hnone]
  | some old =>
      obtain ⟨new, hnew⟩ : ∃ new, (code.setOp index op).instr? other = some new := by
        rw [← Option.isSome_iff_exists, isSome_instr?_setOp, hother]
        rfl
      obtain ⟨old', hold', hlen, -⟩ := instr?_setOp hnew
      rw [hother, Option.some.injEq] at hold'
      subst hold'
      rw [textAt?_of_instr? hother, textAt?_of_instr? hnew, hlen, size_setOp]
      split
      · rfl
      · -- The changed record lies before the text, behind it, or is an instruction within.
        rw [setOp_of_instr? op h]
        have hget := instr?_eq_some_iff.mp h
        simp only [Array.toList_setIfInBounds, payloadText?, List.take_set, List.drop_set]
        split
        · rfl
        · by_cases hin : index < other + old.len
          · rw [payloadBytes?_set _ _ instr]
            rw [List.getElem?_drop, List.getElem?_take_of_lt (by omega),
              show other + 1 + (index - (other + 1)) = index by omega]
            simpa using hget
          · rw [List.set_eq_of_length_le]
            simp only [List.length_drop, List.length_take]
            omega

@[simp] theorem size_append (code : Code) (records : List Record) :
    (Code.mk (code.records ++ records)).size = code.size + records.length := by
  rw [size, ← Array.length_toList, Array.toList_appendList, List.length_append,
    Array.length_toList, size]

-- Records behind the end change nothing before it.
theorem instr?_append_of_lt (code : Code) (records : List Record) {index : Nat}
    (h : index < code.size) :
    (Code.mk (code.records ++ records)).instr? index = code.instr? index := by
  have hget : (code.records ++ records)[index]? = code.records[index]? := by
    rw [← Array.getElem?_toList, Array.toList_appendList, List.getElem?_append_left (by simpa),
      Array.getElem?_toList]
  simp only [instr?, hget]

theorem instr?_append_eq_some_iff (code : Code) (records : List Record) (offset : Nat)
    (instr : Instr) :
    (Code.mk (code.records ++ records)).instr? (code.size + offset) = some instr ↔
      records[offset]? = some (.instr instr) := by
  have hget : (code.records ++ records)[code.size + offset]? = records[offset]? := by
    rw [← Array.getElem?_toList, Array.toList_appendList, List.getElem?_append_right]
    · simp [size]
    · simp [size]
  rw [instr?_eq_some_iff, hget]

theorem textAt?_append (code : Code) (records : List Record) {index : Nat} {instr : Instr}
    (h : code.instr? index = some instr) (hfits : index + instr.len ≤ code.size) :
    (Code.mk (code.records ++ records)).textAt? index = code.textAt? index := by
  have happ := instr?_append_of_lt code records (lt_size_of_instr? h)
  rw [textAt?_of_instr? h, textAt?_of_instr? (happ.trans h), size_append]
  have hlen : index + instr.len ≤ code.records.toList.length := by simpa [size] using hfits
  rw [Array.toList_appendList, List.take_append_of_le_length hlen]
  have hguard : (instr.len = 0 ∨ code.size + records.length < index + instr.len) ↔
      (instr.len = 0 ∨ code.size < index + instr.len) := by omega
  simp only [hguard]

end Code

end FormulaCode
