import FormulaCode.Code.Validate
import FormulaCode.Proofs.Code.Records

namespace FormulaCode.Code

-- A place where an instruction begins, or the end of the code, where the next one will.
def IsStart (code : Code) (index : Nat) : Prop :=
  index = code.size ∨ (code.instr? index).isSome

-- An instruction ends where another one starts, has no other one inside, carries its text if it
-- names something, and jumps to a start if it jumps.
structure Placed (code : Code) (index : Nat) (instr : Instr) : Prop where
  len_pos : 0 < instr.len
  next : code.IsStart (index + instr.len)
  inside : ∀ other, index < other → other < index + instr.len → code.instr? other = none
  text : instr.op.hasText = true → (code.textAt? index).isSome
  single : instr.op.hasText = false → instr.len = 1
  target : ∀ target, instr.op.target? = some target → code.IsStart target

structure Laid (code : Code) : Prop where
  first : code.IsStart 0
  placed : ∀ index instr, code.instr? index = some instr → code.Placed index instr

-- Code to which nothing will be added: every branch leads to an instruction, and the last
-- instruction is a return.
structure Complete (code : Code) : Prop where
  laid : code.Laid
  target : ∀ index instr, code.instr? index = some instr → instr.op.isBranch = true →
    ∃ target, instr.op.target? = some target ∧ target < code.size
  returns : ∃ index instr, code.instr? index = some instr ∧ index + instr.len = code.size ∧
    instr.op = .ret

theorem IsStart.le_size {code : Code} {index : Nat} (h : code.IsStart index) :
    index ≤ code.size := by
  rcases h with h | h
  · omega
  · obtain ⟨instr, hi⟩ := Option.isSome_iff_exists.mp h
    exact Nat.le_of_lt (lt_size_of_instr? hi)

theorem IsStart.exists_instr? {code : Code} {index : Nat} (h : code.IsStart index)
    (hlt : index < code.size) : ∃ instr, code.instr? index = some instr := by
  rcases h with h | h
  · omega
  · exact Option.isSome_iff_exists.mp h

theorem isStart_size (code : Code) : code.IsStart code.size :=
  Or.inl rfl

theorem isStart_setOp (code : Code) (index other : Nat) (op : Op) :
    (code.setOp index op).IsStart other ↔ code.IsStart other := by
  rw [IsStart, IsStart, size_setOp, isSome_instr?_setOp]

-- The records of one instruction: its head and the chunks of its text.
def block (instr : Instr) (chunks : List Chunk) : List Record :=
  .instr instr :: chunks.map .text

def append (code : Code) (instr : Instr) (chunks : List Chunk) : Code :=
  ⟨code.records ++ block instr chunks⟩

@[simp] theorem size_append_block (code : Code) (instr : Instr) (chunks : List Chunk) :
    (code.append instr chunks).size = code.size + (1 + chunks.length) := by
  rw [append, size_append, block, List.length_cons, List.length_map, Nat.add_comm 1]

-- The instructions of longer code are those that were there and the new one.
theorem instr?_append {code : Code} {instr : Instr} {chunks : List Chunk} {index : Nat}
    {found : Instr} :
    (code.append instr chunks).instr? index = some found ↔
      code.instr? index = some found ∨ (index = code.size ∧ found = instr) := by
  by_cases hlt : index < code.size
  · rw [append, instr?_append_of_lt code _ hlt]
    constructor
    · exact Or.inl
    · rintro (h | ⟨rfl, -⟩)
      · exact h
      · exact absurd hlt (Nat.lt_irrefl _)
  · obtain ⟨offset, rfl⟩ := Nat.exists_eq_add_of_le (Nat.le_of_not_lt hlt)
    rw [append, instr?_append_eq_some_iff, block]
    have hnone : ¬code.instr? (code.size + offset) = some found :=
      fun h => hlt (lt_size_of_instr? h)
    cases offset with
    | zero =>
        rw [List.getElem?_cons_zero, Option.some.injEq, Record.instr.injEq, or_iff_right hnone,
          Nat.add_zero, eq_self, true_and, eq_comm]
    | succ offset =>
        constructor
        · intro h
          simp only [List.getElem?_cons_succ, List.getElem?_map, Option.map_eq_some_iff] at h
          obtain ⟨chunk, -, h⟩ := h
          cases h
        · rintro (h | ⟨h, -⟩)
          · exact absurd h hnone
          · omega

theorem IsStart.append {code : Code} {index : Nat} (h : code.IsStart index) (instr : Instr)
    (chunks : List Chunk) : (code.append instr chunks).IsStart index := by
  right
  rw [Option.isSome_iff_exists]
  rcases h with h | h
  · exact ⟨instr, instr?_append.mpr (Or.inr ⟨h, rfl⟩)⟩
  · obtain ⟨found, hfound⟩ := Option.isSome_iff_exists.mp h
    exact ⟨found, instr?_append.mpr (Or.inl hfound)⟩

theorem textAt?_append_size (code : Code) (instr : Instr) (chunks : List Chunk)
    (hlen : instr.len = 1 + chunks.length) :
    (code.append instr chunks).textAt? code.size = payloadText? (chunks.map .text) := by
  have hinstr : (code.append instr chunks).instr? code.size = some instr :=
    instr?_append.mpr (Or.inr ⟨rfl, rfl⟩)
  rw [textAt?_of_instr? hinstr, if_neg (by simp [hlen])]
  have hrecords : (code.append instr chunks).records.toList =
      code.records.toList ++ block instr chunks := by
    rw [append, Array.toList_appendList]
  have hsize : code.records.toList.length = code.size := by simp [size]
  have hlength : (code.records.toList ++ block instr chunks).length ≤ code.size + instr.len := by
    rw [List.length_append, hsize, block, List.length_cons, List.length_map, hlen]
    omega
  rw [hrecords, List.take_of_length_le hlength, ← hsize, ← List.drop_drop, List.drop_left, block,
    List.drop_one, List.tail_cons]

theorem Laid.append {code : Code} (hlaid : code.Laid) {instr : Instr} {chunks : List Chunk}
    (hlen : instr.len = 1 + chunks.length)
    (htext : instr.op.hasText = true → (payloadText? (chunks.map .text)).isSome)
    (hsingle : instr.op.hasText = false → chunks = [])
    (htarget : instr.op.target? = none) :
    (code.append instr chunks).Laid := by
  refine ⟨hlaid.first.append instr chunks, ?_⟩
  intro index found hfound
  rcases instr?_append.mp hfound with hold | ⟨rfl, rfl⟩
  · have hplaced := hlaid.placed index found hold
    have hfits := hplaced.next.le_size
    refine ⟨hplaced.len_pos, hplaced.next.append instr chunks, ?_, ?_, hplaced.single, ?_⟩
    · intro other hlo hhi
      rw [Code.append, instr?_append_of_lt _ _ (by omega)]
      exact hplaced.inside other hlo hhi
    · intro h
      rw [Code.append, textAt?_append code _ hold hfits]
      exact hplaced.text h
    · intro target h
      exact (hplaced.target target h).append instr chunks
  · refine ⟨by omega, Or.inl (by simp [hlen]), ?_, ?_, ?_, ?_⟩
    · intro other hlo hhi
      cases hother : (code.append found chunks).instr? other with
      | none => rfl
      | some inner =>
          rcases instr?_append.mp hother with h | ⟨h, -⟩
          · have := lt_size_of_instr? h
            omega
          · omega
    · intro h
      rw [textAt?_append_size code found chunks hlen]
      exact htext h
    · intro h
      simp [hlen, hsingle h]
    · intro target h
      rw [htarget] at h
      cases h

theorem Laid.setOp {code : Code} (hlaid : code.Laid) {index : Nat} {instr : Instr} {op : Op}
    (hinstr : code.instr? index = some instr) (htext : op.hasText = instr.op.hasText)
    (htarget : ∀ target, op.target? = some target → code.IsStart target) :
    (code.setOp index op).Laid := by
  refine ⟨(isStart_setOp code index 0 op).mpr hlaid.first, ?_⟩
  intro other found hfound
  obtain ⟨old, hold, hlen, -, hne, heq⟩ := instr?_setOp hfound
  have hplaced := hlaid.placed other old hold
  have hop : found.op.hasText = old.op.hasText := by
    by_cases h : other = index
    · rw [heq h, htext]
      subst h
      rw [hinstr, Option.some.injEq] at hold
      rw [hold]
    · rw [hne h]
  constructor
  · rw [hlen]; exact hplaced.len_pos
  · rw [hlen, isStart_setOp]; exact hplaced.next
  · intro inner hlo hhi
    rw [hlen] at hhi
    rw [← Option.not_isSome_iff_eq_none, isSome_instr?_setOp, hplaced.inside inner hlo hhi]
    simp
  · intro h
    rw [textAt?_setOp op other hinstr]
    exact hplaced.text (hop ▸ h)
  · intro h
    rw [hlen]
    exact hplaced.single (hop ▸ h)
  · intro target h
    rw [isStart_setOp]
    by_cases he : other = index
    · exact htarget target (heq he ▸ h)
    · exact hplaced.target target (hne he ▸ h)

theorem Placed.instr?_beyond {code : Code} {index other : Nat} {head instr : Instr}
    (hplaced : code.Placed index head) (hhead : code.instr? index = some head)
    (hle : index ≤ other) (hother : code.instr? other = some instr) :
    (other = index ∧ instr = head) ∨ index + head.len ≤ other := by
  by_cases heq : other = index
  · subst heq
    rw [hhead, Option.some.injEq] at hother
    exact Or.inl ⟨rfl, hother.symm⟩
  · right
    by_contra hlt
    rw [hplaced.inside other (by omega) (by omega)] at hother
    cases hother

theorem walkFrom_eq (code : Code) (index : Nat) :
    code.walkFrom index = match code.instr? index with
      | none => []
      | some instr =>
          if instr.len = 0 then [] else (index, instr) :: code.walkFrom (index + instr.len) := by
  rw [walkFrom]
  split <;> rename_i hinstr <;> simp only [hinstr]

theorem walkFrom_of_size_le {code : Code} {index : Nat} (h : code.size ≤ index) :
    code.walkFrom index = [] := by
  rw [walkFrom]
  split
  · rfl
  · next instr hinstr => exact absurd (lt_size_of_instr? hinstr) (Nat.not_lt.mpr h)

theorem walkFrom_size (code : Code) : code.walkFrom code.size = [] :=
  walkFrom_of_size_le (Nat.le_refl _)

theorem walkFrom_of_instr? {code : Code} {index : Nat} {head : Instr}
    (hhead : code.instr? index = some head) (hpos : 0 < head.len) :
    code.walkFrom index = (index, head) :: code.walkFrom (index + head.len) := by
  rw [walkFrom]
  split
  · next hnone => rw [hhead] at hnone; cases hnone
  · next head' hhead' =>
      rw [hhead, Option.some.injEq] at hhead'
      subst hhead'
      rw [if_neg (by omega)]

theorem Placed.walkFrom_eq {code : Code} {index : Nat} {head : Instr}
    (hplaced : code.Placed index head) (hhead : code.instr? index = some head) :
    code.walkFrom index = (index, head) :: code.walkFrom (index + head.len) :=
  walkFrom_of_instr? hhead hplaced.len_pos

section Walk

variable {code : Code} (hlaid : code.Laid)

include hlaid

-- From the end of the code backwards, instruction by instruction.
theorem Laid.backwards {motive : Nat → Prop} (hend : motive code.size)
    (hstep : ∀ index head, code.instr? index = some head → code.Placed index head →
      motive (index + head.len) → motive index)
    (index : Nat) (hstart : code.IsStart index) : motive index := by
  induction hn : code.size - index using Nat.strongRecOn generalizing index with
  | _ n ih =>
      by_cases hlt : index < code.size
      · obtain ⟨head, hhead⟩ := hstart.exists_instr? hlt
        have hplaced := hlaid.placed index head hhead
        have hpos := hplaced.len_pos
        exact hstep index head hhead hplaced
          (ih (code.size - (index + head.len)) (by omega) _ hplaced.next rfl)
      · have hsize : index = code.size := Nat.le_antisymm hstart.le_size (by omega)
        exact hsize ▸ hend

-- The walk from a start meets exactly the instructions from there on.
theorem Laid.mem_walkFrom (other : Nat) (instr : Instr) (index : Nat)
    (hstart : code.IsStart index) :
    (other, instr) ∈ code.walkFrom index ↔ index ≤ other ∧ code.instr? other = some instr := by
  refine hlaid.backwards (motive := fun index => (other, instr) ∈ code.walkFrom index ↔
    index ≤ other ∧ code.instr? other = some instr) ?_ ?_ index hstart
  · rw [walkFrom_size]
    constructor
    · intro h; cases h
    · rintro ⟨hle, hother⟩
      have := lt_size_of_instr? hother
      omega
  · intro index head hhead hplaced ih
    rw [hplaced.walkFrom_eq hhead, List.mem_cons, ih]
    constructor
    · rintro (he | ⟨hle, hother⟩)
      · cases he
        exact ⟨Nat.le_refl _, hhead⟩
      · exact ⟨by omega, hother⟩
    · rintro ⟨hle, hother⟩
      rcases hplaced.instr?_beyond hhead hle hother with ⟨rfl, rfl⟩ | hbeyond
      · exact Or.inl rfl
      · exact Or.inr ⟨hbeyond, hother⟩

theorem Laid.mem_walk (other : Nat) (instr : Instr) :
    (other, instr) ∈ code.walk ↔ code.instr? other = some instr := by
  rw [walk, hlaid.mem_walkFrom other instr 0 hlaid.first]
  simp

theorem Laid.getLast?_walk {last : Nat} {instr : Instr} (hlast : code.instr? last = some instr)
    (hend : last + instr.len = code.size) : code.walk.getLast? = some (last, instr) := by
  refine hlaid.backwards (motive := fun index => index ≤ last →
    (code.walkFrom index).getLast? = some (last, instr)) ?_ ?_ 0 hlaid.first (Nat.zero_le _)
  · intro hle
    have := lt_size_of_instr? hlast
    omega
  · intro index head hhead hplaced ih hle
    rw [hplaced.walkFrom_eq hhead]
    rcases hplaced.instr?_beyond hhead hle hlast with ⟨rfl, rfl⟩ | hbeyond
    · rw [hend, walkFrom_size]
      rfl
    · rw [List.getLast?_cons, ih hbeyond]
      rfl

end Walk

section Valid

variable {code : Code} (h : code.Complete)

include h

omit h in
theorem instrDefect?_eq_none_iff {index : Nat} {instr : Instr} :
    code.instrDefect? index instr = none ↔
      (instr.op.hasText = true → (code.textAt? index).isSome) ∧
      (instr.op.hasText = false → instr.len = 1) ∧
      (instr.op.isBranch = true → ∃ target, instr.op.target? = some target) := by
  have hfirst : ∀ (p : Prop) [Decidable p] (defect : Defect) (rest : Option Defect),
      (if p then some defect else rest) = none ↔ ¬p ∧ rest = none := by
    intro p _ defect rest
    split <;> simp [*]
  simp only [instrDefect?, hfirst]
  cases instr.op.hasText <;> cases instr.op.isBranch <;>
    simp [Option.ne_none_iff_exists', Option.isSome_iff_exists]

theorem Complete.instrDefect?_eq_none {index : Nat} {instr : Instr}
    (hinstr : code.instr? index = some instr) : code.instrDefect? index instr = none := by
  have hplaced := h.laid.placed index instr hinstr
  refine instrDefect?_eq_none_iff.mpr ⟨hplaced.text, hplaced.single, fun hbranch => ?_⟩
  obtain ⟨target, htarget, -⟩ := h.target index instr hinstr hbranch
  exact ⟨target, htarget⟩

-- The check of single instructions passes, and goes where the walk goes.
theorem Complete.instructionsFrom_eq (index : Nat) (hstart : code.IsStart index) :
    code.instructionsFrom index = .ok (code.walkFrom index) := by
  refine h.laid.backwards (motive := fun index => code.instructionsFrom index =
    .ok (code.walkFrom index)) ?_ ?_ index hstart
  · rw [instructionsFrom, if_neg (Nat.lt_irrefl _), walkFrom_size]
  · intro index head hhead hplaced ih
    have hpos := hplaced.len_pos
    have hnext := hplaced.next.le_size
    rw [instructionsFrom, if_pos (lt_size_of_instr? hhead), hplaced.walkFrom_eq hhead]
    simp only [hhead, if_neg (show ¬(head.len = 0 ∨ code.size < index + head.len) by omega),
      h.instrDefect?_eq_none hhead, ih]
    rfl

omit h in
theorem strayBranch?_eq_none {instructions : List (Nat × Instr)}
    (h : ∀ index instr target, (index, instr) ∈ instructions → instr.op.target? = some target →
      ∃ landing, (target, landing) ∈ instructions) : strayBranch? instructions = none := by
  unfold strayBranch?
  rw [List.findSome?_eq_none_iff]
  rintro ⟨index, instr⟩ hmem
  cases htarget : instr.op.target? with
  | none => simp [htarget]
  | some target =>
      simpa [htarget] using h index instr target hmem htarget

theorem Complete.strayBranch?_eq_none : strayBranch? code.walk = none := by
  apply FormulaCode.Code.strayBranch?_eq_none
  intro index instr target hmem htarget
  have hinstr := (h.laid.mem_walk index instr).mp hmem
  have hbranch : instr.op.isBranch = true := by
    cases hop : instr.op <;> simp_all [Op.target?, Op.isBranch]
  obtain ⟨target', htarget', hlt⟩ := h.target index instr hinstr hbranch
  rw [htarget, Option.some.injEq] at htarget'
  subst htarget'
  have hstart := (h.laid.placed index instr hinstr).target target htarget
  obtain ⟨landing, hlanding⟩ := hstart.exists_instr? hlt
  exact ⟨landing, (h.laid.mem_walk target landing).mpr hlanding⟩

theorem Complete.validate_eq_ok : code.validate = .ok () := by
  obtain ⟨last, instr, hlast, hend, hret⟩ := h.returns
  have hwalk : code.instructionsFrom 0 = .ok code.walk := h.instructionsFrom_eq 0 h.laid.first
  simp only [validate, hwalk, bind, Except.bind, h.strayBranch?_eq_none,
    h.laid.getLast?_walk hlast hend, Option.map_some, hret, if_pos]

-- No instruction but the return ends the code.
theorem Complete.ret_of_end {index : Nat} {instr : Instr}
    (hinstr : code.instr? index = some instr) (hend : index + instr.len = code.size) :
    instr.op = .ret := by
  obtain ⟨last, ret, hlast, hlastEnd, hret⟩ := h.returns
  have hpos := (h.laid.placed index instr hinstr).len_pos
  have hlastPos := (h.laid.placed last ret hlast).len_pos
  rcases Nat.le_total index last with hle | hle
  · rcases (h.laid.placed index instr hinstr).instr?_beyond hinstr hle hlast with ⟨-, rfl⟩ | hlt
    · exact hret
    · omega
  · rcases (h.laid.placed last ret hlast).instr?_beyond hlast hle hinstr with ⟨-, rfl⟩ | hlt
    · exact hret
    · omega

end Valid

-- The records stand in the code from a place on.
def Contains (code : Code) (base : Nat) (records : List Record) : Prop :=
  ∃ before after, code.records.toList = before ++ records ++ after ∧ before.length = base

section Contains

variable {code : Code} {base : Nat}

theorem Contains.left {first second : List Record} (h : code.Contains base (first ++ second)) :
    code.Contains base first := by
  obtain ⟨before, after, hrecords, hbase⟩ := h
  exact ⟨before, second ++ after, by simp [hrecords], hbase⟩

theorem Contains.right {first second : List Record} (h : code.Contains base (first ++ second)) :
    code.Contains (base + first.length) second := by
  obtain ⟨before, after, hrecords, hbase⟩ := h
  exact ⟨before ++ first, after, by simp [hrecords], by simp [hbase]⟩

-- The code up to the end of a block is made by adding the block.
theorem Contains.exists_append {instr : Instr} {chunks : List Chunk}
    (h : code.Contains base (block instr chunks)) :
    ∃ (before : Code) (after : List Record), before.size = base ∧
      code = ⟨(before.append instr chunks).records ++ after⟩ := by
  obtain ⟨before, after, hrecords, hbase⟩ := h
  refine ⟨⟨before.toArray⟩, after, by simp [size, hbase], ?_⟩
  have hlist : code.records = (before ++ block instr chunks ++ after).toArray := by
    rw [← hrecords, Array.toArray_toList]
  obtain ⟨records⟩ := code
  simp only at hlist
  simp [hlist, append]

theorem Contains.instr? {instr : Instr} {chunks : List Chunk}
    (h : code.Contains base (block instr chunks)) : code.instr? base = some instr := by
  obtain ⟨before, after, rfl, rfl⟩ := h.exists_append
  rw [instr?_append_of_lt _ _ (by rw [size_append_block]; omega)]
  exact instr?_append.mpr (Or.inr ⟨rfl, rfl⟩)

theorem Contains.textAt? {instr : Instr} {chunks : List Chunk}
    (h : code.Contains base (block instr chunks)) (hlen : instr.len = 1 + chunks.length) :
    code.textAt? base = payloadText? (chunks.map .text) := by
  obtain ⟨before, after, rfl, rfl⟩ := h.exists_append
  have hinstr : (before.append instr chunks).instr? before.size = some instr :=
    instr?_append.mpr (Or.inr ⟨rfl, rfl⟩)
  rw [textAt?_append _ after hinstr (by simp [hlen]), textAt?_append_size _ _ _ hlen]

end Contains

-- A text is cut into chunks that hold its bytes and some zeros behind them. It is read back up to
-- its first zero behind any instruction that spans its chunks, whatever the records around them are.
theorem textChunks_read_back (text : List Char) :
    (textChunks text).length = byteLength text / 8 + 1 ∧
    (∃ zeros, 1 ≤ zeros ∧ zeros ≤ 8 ∧
      (textChunks text).flatMap Vector.toList = toBytes text ++ List.replicate zeros 0) ∧
    ∀ (op : Op) (pos : UInt32) (before after : List Record),
      textAt?
        ⟨(before ++ block ⟨op, 1 + (textChunks text).length, pos⟩ (textChunks text) ++ after).toArray⟩
        before.length = some (text.takeWhile (· ≠ '\x00')) := by
  refine ⟨length_textChunks text, ⟨8 - byteLength text % 8, by omega, by omega,
    flatMap_textChunks text⟩, ?_⟩
  intro op pos before after
  have hpayload := payloadText?_textChunks text []
  rw [List.append_nil] at hpayload
  rw [← hpayload]
  exact Contains.textAt? ⟨before, after, rfl, rfl⟩ rfl

end FormulaCode.Code
