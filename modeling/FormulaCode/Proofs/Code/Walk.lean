import FormulaCode.Proofs.Code.Shape

namespace FormulaCode.Code

variable {code : Code}

theorem walkFrom_eq_cons {index : Nat} {item : Nat × Instr} {rest : List (Nat × Instr)}
    (h : code.walkFrom index = item :: rest) :
    ∃ head, item = (index, head) ∧ code.instr? index = some head ∧ 0 < head.len ∧
      rest = code.walkFrom (index + head.len) := by
  rw [walkFrom] at h
  split at h
  · cases h
  · rename_i head hhead
    split at h
    · cases h
    · rename_i hlen
      cases h
      exact ⟨head, rfl, hhead, Nat.pos_of_ne_zero hlen, rfl⟩

-- From the end of a walk backwards, instruction by instruction.
@[elab_as_elim] theorem walkFrom_induction {motive : Nat → Prop}
    (hend : ∀ index, code.walkFrom index = [] → motive index)
    (hstep : ∀ index head, code.instr? index = some head → 0 < head.len →
      motive (index + head.len) → motive index) (index : Nat) : motive index := by
  induction hwalk : code.walkFrom index generalizing index with
  | nil => exact hend index hwalk
  | cons item rest ih =>
      obtain ⟨head, -, hhead, hpos, hrest⟩ := walkFrom_eq_cons hwalk
      exact hstep index head hhead hpos (ih _ hrest.symm)

-- A walk that is cut at one of its instructions goes on where that instruction ends.
theorem walkFrom_split {index other : Nat} {instr : Instr} {before after : List (Nat × Instr)}
    (h : code.walkFrom index = before ++ (other, instr) :: after) :
    code.instr? other = some instr ∧ 0 < instr.len ∧ after = code.walkFrom (other + instr.len) ∧
      index ≤ other ∧ ∀ item ∈ before, item.1 < other := by
  induction before generalizing index with
  | nil =>
      obtain ⟨head, hitem, hhead, hpos, hrest⟩ := walkFrom_eq_cons h
      cases hitem
      exact ⟨hhead, hpos, hrest, Nat.le_refl _, by simp⟩
  | cons item before ih =>
      obtain ⟨head, rfl, hhead, hpos, hrest⟩ := walkFrom_eq_cons h
      obtain ⟨hinstr, hinstrPos, hafter, hle, hbefore⟩ := ih hrest.symm
      refine ⟨hinstr, hinstrPos, hafter, by omega, ?_⟩
      rw [List.forall_mem_cons]
      exact ⟨by simp only; omega, hbefore⟩

theorem instr?_of_mem_walk {index : Nat} {instr : Instr} (h : (index, instr) ∈ code.walk) :
    code.instr? index = some instr ∧ 0 < instr.len := by
  obtain ⟨before, after, hsplit⟩ := List.append_of_mem h
  obtain ⟨hinstr, hpos, -⟩ := walkFrom_split hsplit
  exact ⟨hinstr, hpos⟩

-- What lies behind an instruction is met after it.
theorem mem_walkFrom_of_lt {index other : Nat} {instr later : Instr}
    (h : (index, instr) ∈ code.walk) (hother : (other, later) ∈ code.walk) (hlt : index < other) :
    (other, later) ∈ code.walkFrom (index + instr.len) := by
  obtain ⟨before, after, hsplit⟩ := List.append_of_mem h
  obtain ⟨-, -, rfl, -, hbefore⟩ := walkFrom_split hsplit
  rw [hsplit, List.mem_append, List.mem_cons] at hother
  rcases hother with hmem | heq | hmem
  · have hless := hbefore _ hmem
    simp only at hless
    omega
  · cases heq
    exact absurd hlt (Nat.lt_irrefl _)
  · exact hmem

-- Every instruction of the walk ends at a place that has 32 bits.
def Addressable (code : Code) : Prop :=
  ∀ item ∈ code.walk, item.1 + item.2.len < UInt32.size

instance (code : Code) : Decidable code.Addressable :=
  inferInstanceAs (Decidable (∀ item ∈ code.walk, item.1 + item.2.len < UInt32.size))

-- A walk with places of 32 bits is the walk, if all its places have them.
theorem walkFrom?_eq (code : Code) (index : Nat) :
    code.walkFrom? index =
      if ∀ item ∈ code.walkFrom index, item.1 + item.2.len < UInt32.size
      then some (code.walkFrom index) else none := by
  fun_induction walkFrom? code index with
  | case1 index hnone =>
      rw [walkFrom_eq, hnone]
      rfl
  | case2 index instr hinstr hlt hzero =>
      rw [walkFrom_eq, hinstr]
      simp [hzero]
  | case3 index instr hinstr hlt hlen hover =>
      rw [walkFrom_of_instr? hinstr (Nat.pos_of_ne_zero hlen), if_neg]
      intro h
      exact absurd (List.forall_mem_cons.mp h).1 (Nat.not_lt_of_le hover)
  | case4 index instr hinstr hlt hlen hfits ih =>
      rw [ih, walkFrom_of_instr? hinstr (Nat.pos_of_ne_zero hlen)]
      by_cases hrest : ∀ item ∈ code.walkFrom (index + instr.len), item.1 + item.2.len < UInt32.size
      · have hall : ∀ item ∈ (index, instr) :: code.walkFrom (index + instr.len),
            item.1 + item.2.len < UInt32.size :=
          List.forall_mem_cons.mpr ⟨Nat.lt_of_not_le hfits, hrest⟩
        rw [if_pos hrest, if_pos hall]
        rfl
      · rw [if_neg hrest, if_neg fun h => hrest (List.forall_mem_cons.mp h).2]
        rfl

theorem walk?_of_addressable (h : code.Addressable) : code.walk? = some code.walk := by
  rw [walk?, walkFrom?_eq]
  exact if_pos h

theorem walk?_of_not_addressable (h : ¬code.Addressable) : code.walk? = none := by
  rw [walk?, walkFrom?_eq]
  exact if_neg h

-- A new operation stands at its place in the walk, and the places are the same.
theorem walkFrom_setOp (code : Code) (place : Nat) (op : Op) (index : Nat) :
    (code.setOp place op).walkFrom index =
      (code.walkFrom index).map fun item => (item.1, item.2.setOpAt place op item.1) := by
  fun_induction walkFrom code index with
  | case1 index hnone =>
      rw [walkFrom_eq, instr?_setOp_eq, hnone]
      rfl
  | case2 index instr hinstr hlt hzero =>
      rw [walkFrom_eq, instr?_setOp_eq, hinstr]
      simp only [Option.map_some, Instr.len_setOpAt, if_pos hzero, List.map_nil]
  | case3 index instr hinstr hlt hpos ih =>
      rw [walkFrom_eq, instr?_setOp_eq, hinstr, List.map_cons, ← ih]
      simp only [Option.map_some, Instr.len_setOpAt, if_neg hpos]

section Validate

theorem instructionsFrom_of_lt {index : Nat} {instructions : List (Nat × Instr)}
    (h : code.instructionsFrom index = .ok instructions) (hlt : index < code.size) :
    ∃ head rest, code.instr? index = some head ∧ 0 < head.len ∧
      index + head.len ≤ code.size ∧ code.instrDefect? index head = none ∧
      code.instructionsFrom (index + head.len) = .ok rest ∧
      instructions = (index, head) :: rest := by
  rw [instructionsFrom, if_pos hlt] at h
  split at h
  · cases h
  · rename_i head hhead
    split at h
    · cases h
    · rename_i hfits
      split at h
      · cases h
      · rename_i hdefect
        cases hrest : code.instructionsFrom (index + head.len) with
        | error e => simp [hrest, bind, Except.bind] at h
        | ok rest =>
            simp only [hrest, bind, Except.bind, pure, Except.pure, Except.ok.injEq] at h
            exact ⟨head, rest, hhead, by omega, by omega, hdefect, hrest, h.symm⟩

theorem instructionsFrom_cons {index : Nat} {head : Instr} {rest : List (Nat × Instr)}
    (hhead : code.instr? index = some head) (hpos : 0 < head.len)
    (hfits : index + head.len ≤ code.size) (hdefect : code.instrDefect? index head = none)
    (hrest : code.instructionsFrom (index + head.len) = .ok rest) :
    code.instructionsFrom index = .ok ((index, head) :: rest) := by
  rw [instructionsFrom, if_pos (by omega)]
  simp only [hhead, if_neg (show ¬(head.len = 0 ∨ code.size < index + head.len) by omega),
    hdefect, hrest]
  rfl

-- What the check of single instructions has seen is the walk. None has a defect, and each is
-- followed by another one until the records end.
theorem instructionsFrom_eq_ok {index : Nat} {instructions : List (Nat × Instr)}
    (h : code.instructionsFrom index = .ok instructions) :
    instructions = code.walkFrom index ∧
      (index < code.size → ∃ head, (index, head) ∈ instructions) ∧
      ∀ other instr, (other, instr) ∈ instructions → code.instrDefect? other instr = none ∧
        (other + instr.len < code.size → ∃ next, (other + instr.len, next) ∈ instructions) := by
  induction instructions generalizing index with
  | nil =>
      by_cases hlt : index < code.size
      · obtain ⟨head, rest, -, -, -, -, -, hcons⟩ := instructionsFrom_of_lt h hlt
        cases hcons
      · refine ⟨(walkFrom_of_size_le (Nat.le_of_not_lt hlt)).symm, fun hlt' => absurd hlt' hlt, ?_⟩
        intro other instr hmem
        cases hmem
  | cons item items ih =>
      by_cases hlt : index < code.size
      · obtain ⟨head, rest, hhead, hpos, -, hdefect, hrest, hcons⟩ := instructionsFrom_of_lt h hlt
        cases hcons
        obtain ⟨hwalk, hnext, hall⟩ := ih hrest
        refine ⟨by rw [walkFrom_of_instr? hhead hpos, ← hwalk],
          fun _ => ⟨head, List.mem_cons_self⟩, ?_⟩
        have hlater : ∀ place, (∃ next, (place, next) ∈ items) →
            ∃ next, (place, next) ∈ (index, head) :: items := by
          rintro place ⟨next, hmem⟩
          exact ⟨next, List.mem_cons_of_mem _ hmem⟩
        intro other instr hmem
        rcases List.mem_cons.mp hmem with heq | hmem
        · cases heq
          exact ⟨hdefect, fun hsize => hlater _ (hnext hsize)⟩
        · obtain ⟨hother, hotherNext⟩ := hall other instr hmem
          exact ⟨hother, fun hsize => hlater _ (hotherNext hsize)⟩
      · rw [instructionsFrom, if_neg hlt] at h
        cases h

theorem mem_of_strayBranch? {instructions : List (Nat × Instr)}
    (h : strayBranch? instructions = none) {index target : Nat} {instr : Instr}
    (hmem : (index, instr) ∈ instructions) (htarget : instr.op.target? = some target) :
    ∃ landing, (target, landing) ∈ instructions := by
  have hnone := List.findSome?_eq_none_iff.mp h (index, instr) hmem
  simp only [htarget, Option.bind_eq_bind, Option.bind_some] at hnone
  split at hnone
  · rename_i hfound
    obtain ⟨⟨place, landing⟩, hlanding, rfl⟩ := List.mem_map.mp (List.contains_iff_mem.mp hfound)
    exact ⟨landing, hlanding⟩
  · cases hnone

-- Control stays on the instructions of the walk.
structure Closed (code : Code) : Prop where
  first : ∃ instr, (0, instr) ∈ code.walk
  next : ∀ index instr, (index, instr) ∈ code.walk → instr.op.falls = true →
    ∃ next, (index + instr.len, next) ∈ code.walk
  target : ∀ index instr, (index, instr) ∈ code.walk → instr.op.isBranch = true →
    ∃ target landing, instr.op.target? = some target ∧ (target, landing) ∈ code.walk

theorem Closed.mem_walk_of_reaches (h : code.Closed) {index depth : Nat}
    (hreaches : code.Reaches index depth) : ∃ instr, (index, instr) ∈ code.walk := by
  induction hreaches with
  | start => exact h.first
  | next path hinstr hpops hfalls ih =>
      obtain ⟨instr, hmem⟩ := ih
      obtain rfl := Option.some.inj ((instr?_of_mem_walk hmem).1.symm.trans hinstr)
      exact h.next _ _ hmem hfalls
  | jump path hinstr hpops htarget ih =>
      obtain ⟨instr, hmem⟩ := ih
      obtain rfl := Option.some.inj ((instr?_of_mem_walk hmem).1.symm.trans hinstr)
      obtain ⟨target, landing, htarget', hlanding⟩ :=
        h.target _ _ hmem (Op.isBranch_of_target? htarget)
      obtain rfl := Option.some.inj (htarget'.symm.trans htarget)
      exact ⟨landing, hlanding⟩

theorem Closed.walks_of_reaches (h : code.Closed) {index depth : Nat} {instr : Instr}
    (hreaches : code.Reaches index depth) (hinstr : code.instr? index = some instr) :
    (index, instr) ∈ code.walk ∧ 0 < instr.len := by
  obtain ⟨instr', hmem⟩ := h.mem_walk_of_reaches hreaches
  obtain ⟨hinstr', hpos⟩ := instr?_of_mem_walk hmem
  obtain rfl := Option.some.inj (hinstr.symm.trans hinstr')
  exact ⟨hmem, hpos⟩

theorem validate_eq_ok_iff : code.validate = .ok () ↔ code.instructionsFrom 0 = .ok code.walk ∧
    strayBranch? code.walk = none ∧ code.walk.getLast?.map (·.2.op) = some .ret := by
  constructor
  · intro h
    simp only [validate, bind, Except.bind] at h
    split at h
    · cases h
    rename_i instructions hinstructions
    obtain rfl : instructions = code.walk := (instructionsFrom_eq_ok hinstructions).1
    split at h
    · cases h
    rename_i hstray
    split at h
    · rename_i hlast
      exact ⟨hinstructions, hstray, hlast⟩
    · cases h
  · rintro ⟨hinstructions, hstray, hlast⟩
    simp only [validate, hinstructions, bind, Except.bind, hstray, if_pos hlast]

theorem closed_of_validate (h : code.validate = .ok ()) : code.Closed := by
  obtain ⟨hinstructions, hstray, hlast⟩ := validate_eq_ok_iff.mp h
  obtain ⟨-, -, hall⟩ := instructionsFrom_eq_ok hinstructions
  constructor
  · cases hfirst : code.walk with
    | nil =>
        rw [hfirst] at hlast
        cases hlast
    | cons item rest =>
        obtain ⟨head, rfl, -⟩ := walkFrom_eq_cons hfirst
        exact ⟨head, List.mem_cons_self⟩
  · intro index instr hmem hfalls
    refine (hall index instr hmem).2 (Nat.lt_of_not_le fun hsize => ?_)
    -- An instruction that ends the records ends the walk, and so returns.
    obtain ⟨before, after, hsplit⟩ := List.append_of_mem hmem
    obtain ⟨-, -, hafter, -⟩ := walkFrom_split hsplit
    rw [walkFrom_of_size_le hsize] at hafter
    rw [hsplit, hafter, List.getLast?_concat, Option.map_some, Option.some.injEq] at hlast
    rw [hlast] at hfalls
    cases hfalls
  · intro index instr hmem hbranch
    obtain ⟨target, htarget⟩ := (instrDefect?_eq_none_iff.mp (hall index instr hmem).1).2.2 hbranch
    obtain ⟨landing, hlanding⟩ := mem_of_strayBranch? hstray hmem htarget
    exact ⟨target, landing, htarget, hlanding⟩

end Validate

end FormulaCode.Code
