import FormulaCode.Proofs.Code.Walk

namespace FormulaCode.Code

variable {code : Code}

-- The instructions of the walk take up the records between them: none reaches past the end, and
-- every record belongs to exactly one. Each carries the text that its operation needs and no other
-- records, jumps only to where another one begins, and the last one returns.
structure Spanned (code : Code) : Prop where
  within : ∀ index instr, (index, instr) ∈ code.walk → index + instr.len ≤ code.size
  covers : ∀ place < code.size,
    ∃! item, item ∈ code.walk ∧ item.1 ≤ place ∧ place < item.1 + item.2.len
  returns : ∃ index instr, code.walk.getLast? = some (index, instr) ∧ instr.op = .ret
  text : ∀ index instr, (index, instr) ∈ code.walk → instr.op.hasText = true →
    ∃ text, code.textAt? index = some text
  single : ∀ index instr, (index, instr) ∈ code.walk → instr.op.hasText = false → instr.len = 1
  target : ∀ index instr, (index, instr) ∈ code.walk → instr.op.isBranch = true →
    ∃ target landing, instr.op.target? = some target ∧ (target, landing) ∈ code.walk

theorem le_of_mem_walkFrom {index other : Nat} {instr : Instr}
    (h : (other, instr) ∈ code.walkFrom index) : index ≤ other := by
  obtain ⟨before, after, hsplit⟩ := List.append_of_mem h
  exact (walkFrom_split hsplit).2.2.2.1

-- Two instructions of a walk share no record.
theorem eq_of_mem_walk {place : Nat} {item other : Nat × Instr} (h : item ∈ code.walk)
    (hother : other ∈ code.walk) (hle : item.1 ≤ place) (hlt : place < item.1 + item.2.len)
    (hotherLe : other.1 ≤ place) (hotherLt : place < other.1 + other.2.len) : item = other := by
  obtain ⟨index, instr⟩ := item
  obtain ⟨index', instr'⟩ := other
  simp only at hle hlt hotherLe hotherLt
  rcases Nat.lt_trichotomy index index' with hless | rfl | hless
  · have hbeyond := le_of_mem_walkFrom (mem_walkFrom_of_lt h hother hless)
    omega
  · have hsame := (instr?_of_mem_walk h).1.symm.trans (instr?_of_mem_walk hother).1
    rw [Option.some.inj hsame]
  · have hbeyond := le_of_mem_walkFrom (mem_walkFrom_of_lt hother h hless)
    omega

-- What the check of single instructions has passed leaves no record out.
theorem instructionsFrom_spans {index : Nat} {instructions : List (Nat × Instr)}
    (h : code.instructionsFrom index = .ok instructions) :
    (∀ item ∈ instructions, item.1 + item.2.len ≤ code.size) ∧
      ∀ place, index ≤ place → place < code.size →
        ∃ item ∈ instructions, item.1 ≤ place ∧ place < item.1 + item.2.len := by
  induction instructions generalizing index with
  | nil =>
      refine ⟨by simp, fun place hle hlt => ?_⟩
      obtain ⟨_, _, -, -, -, -, -, hcons⟩ := instructionsFrom_of_lt h (Nat.lt_of_le_of_lt hle hlt)
      cases hcons
  | cons item items ih =>
      have hsize : index < code.size := by
        by_contra hge
        rw [instructionsFrom, if_neg hge] at h
        cases h
      obtain ⟨head, rest, -, -, hfits, -, hrest, hcons⟩ := instructionsFrom_of_lt h hsize
      cases hcons
      obtain ⟨hwithin, hcovers⟩ := ih hrest
      refine ⟨List.forall_mem_cons.mpr ⟨hfits, hwithin⟩, fun place hle hlt => ?_⟩
      by_cases hhead : place < index + head.len
      · exact ⟨(index, head), List.mem_cons_self, hle, hhead⟩
      · obtain ⟨found, hfound, hspan⟩ := hcovers place (Nat.le_of_not_lt hhead) hlt
        exact ⟨found, List.mem_cons_of_mem _ hfound, hspan⟩

theorem spanned_of_validate (h : code.validate = .ok ()) : code.Spanned := by
  obtain ⟨hinstructions, -, hlast⟩ := validate_eq_ok_iff.mp h
  obtain ⟨hwithin, hcovers⟩ := instructionsFrom_spans hinstructions
  obtain ⟨-, -, hall⟩ := instructionsFrom_eq_ok hinstructions
  have hsound : ∀ index instr, (index, instr) ∈ code.walk → code.instrDefect? index instr = none :=
    fun index instr hmem => (hall index instr hmem).1
  refine ⟨fun index instr => hwithin (index, instr), ?_, ?_, ?_, ?_, (closed_of_validate h).target⟩
  · intro place hlt
    obtain ⟨item, hmem, hspan⟩ := hcovers place (Nat.zero_le place) hlt
    refine ⟨item, ⟨hmem, hspan⟩, ?_⟩
    rintro other ⟨hother, hotherSpan⟩
    exact eq_of_mem_walk hother hmem hotherSpan.1 hotherSpan.2 hspan.1 hspan.2
  · obtain ⟨⟨index, instr⟩, hitem, hret⟩ := Option.map_eq_some_iff.mp hlast
    exact ⟨index, instr, hitem, hret⟩
  · intro index instr hmem htext
    exact Option.isSome_iff_exists.mp ((instrDefect?_eq_none_iff.mp (hsound index instr hmem)).1 htext)
  · intro index instr hmem
    exact (instrDefect?_eq_none_iff.mp (hsound index instr hmem)).2.1

namespace Spanned

variable (h : code.Spanned)

include h

theorem instrDefect?_eq_none {index : Nat} {instr : Instr} (hmem : (index, instr) ∈ code.walk) :
    code.instrDefect? index instr = none := by
  refine instrDefect?_eq_none_iff.mpr ⟨fun htext => ?_, h.single index instr hmem, fun hbranch => ?_⟩
  · exact Option.isSome_iff_exists.mpr (h.text index instr hmem htext)
  · obtain ⟨target, -, htarget, -⟩ := h.target index instr hmem hbranch
    exact ⟨target, htarget⟩

-- Where the walk has come to, the check goes on as the walk does. It cannot stop before the end, as
-- no instruction already met covers the next record.
theorem instructionsFrom_eq {index : Nat} (before : List (Nat × Instr))
    (hwalk : code.walk = before ++ code.walkFrom index)
    (hbefore : ∀ item ∈ before, item.1 + item.2.len ≤ index) :
    code.instructionsFrom index = .ok (code.walkFrom index) := by
  induction index using walkFrom_induction generalizing before with
  | hend index hnil =>
      rw [hnil, List.append_nil] at hwalk
      have hsize : ¬index < code.size := by
        intro hlt
        obtain ⟨item, ⟨hmem, -, hcovers⟩, -⟩ := h.covers index hlt
        have hends := hbefore item (hwalk ▸ hmem)
        omega
      rw [instructionsFrom, if_neg hsize, hnil]
  | hstep index head hhead hpos ih =>
      have hcons := walkFrom_of_instr? hhead hpos
      have hmem : (index, head) ∈ code.walk := by
        rw [hwalk, hcons]
        simp
      rw [hcons, ← List.singleton_append, ← List.append_assoc] at hwalk
      have hnext := ih _ hwalk (List.forall_mem_append.mpr ⟨fun item hitem => ?_, by simp⟩)
      · rw [hcons]
        exact instructionsFrom_cons hhead hpos (h.within index head hmem)
          (h.instrDefect?_eq_none hmem) hnext
      · have hends := hbefore item hitem
        omega

theorem validate_eq_ok : code.validate = .ok () := by
  refine validate_eq_ok_iff.mpr ⟨h.instructionsFrom_eq [] rfl (by simp), ?_, ?_⟩
  · refine strayBranch?_eq_none fun index instr target hmem htarget => ?_
    obtain ⟨target', landing, htarget', hlanding⟩ :=
      h.target index instr hmem (Op.isBranch_of_target? htarget)
    obtain rfl := Option.some.inj (htarget'.symm.trans htarget)
    exact ⟨landing, hlanding⟩
  · obtain ⟨index, instr, hlast, hret⟩ := h.returns
    rw [hlast, Option.map_some, hret]

end Spanned

end FormulaCode.Code
