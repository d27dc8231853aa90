import FormulaCode.Code.Balance
import FormulaCode.Proofs.Code.Layout

namespace FormulaCode

-- What a slot of the stack holds while code runs: a value, or a place to assign to.
inductive Slot where
  | value
  | pointer
deriving DecidableEq

-- The slots of a stack, the top one first.
abbrev Shape := List Slot

namespace Op

-- The slots that an instruction takes. Only assignments and steps take a place.
def takes : Op → Shape
  | assign _ => [.value, .pointer]
  | incDec _ => [.pointer]
  | op => List.replicate op.pops .value

-- The slots that it leaves for the next instruction.
def leaves : Op → Shape
  | ret | goto _ | branchIfFalse _ | branchIfTrue _ => []
  | lookupPointer | derefPointer | slicePointer _ => [.pointer]
  | _ => [.value]

-- What a branch that is taken leaves of the slots it takes.
def carries : Op → Shape
  | branchIfFalse branch | branchIfTrue branch => if branch.popOnBranch then [] else [.value]
  | _ => []

-- Whether the next instruction can follow.
def falls : Op → Bool
  | ret | goto _ => false
  | _ => true

@[simp] theorem length_takes (op : Op) : op.takes.length = op.pops := by
  cases op <;> simp [takes, pops]

@[simp] theorem length_leaves (op : Op) : op.leaves.length = op.pushes := by
  cases op <;> rfl

-- A new target changes nothing else about a jump.
theorem withTarget?_eq_some {op jump : Op} {target : Nat} (h : op.withTarget? target = some jump) :
    jump.target? = some target ∧ jump.isBranch = true ∧ op.isBranch = true ∧
      jump.takes = op.takes ∧ jump.leaves = op.leaves ∧ jump.carries = op.carries ∧
      jump.falls = op.falls ∧ jump.hasText = op.hasText := by
  cases op with
  | branchIfFalse branch | branchIfTrue branch | goto old =>
      cases h
      exact ⟨rfl, rfl, rfl, rfl, rfl, rfl, rfl, rfl⟩
  | _ => cases h

theorem exists_withTarget? {op : Op} (h : op.isBranch = true) (target : Nat) :
    ∃ jump, op.withTarget? target = some jump := by
  cases op with
  | branchIfFalse branch | branchIfTrue branch | goto old => exact ⟨_, rfl⟩
  | _ => cases h

theorem target?_of_not_isBranch {op : Op} (h : op.isBranch = false) : op.target? = none := by
  cases op with
  | branchIfFalse branch | branchIfTrue branch | goto target => cases h
  | _ => rfl

theorem isBranch_of_target? {op : Op} {target : Nat} (h : op.target? = some target) :
    op.isBranch = true := by
  cases hbranch : op.isBranch with
  | true => rfl
  | false =>
      rw [target?_of_not_isBranch hbranch] at h
      cases h

theorem pushes_of_isBranch {op : Op} (h : op.isBranch = true) : op.pushes = 0 := by
  cases op with
  | branchIfFalse branch | branchIfTrue branch | goto target => rfl
  | _ => cases h

theorem eq_ret_of_not_falls {op : Op} (hbranch : op.isBranch = false) (hfalls : op.falls = false) :
    op = .ret := by
  cases op with
  | branchIfFalse branch | branchIfTrue branch | goto target => cases hbranch
  | ret => rfl
  | _ => cases hfalls

theorem length_carries_le (op : Op) : op.carries.length ≤ op.pops := by
  cases op with
  | branchIfFalse branch | branchIfTrue branch =>
      simp only [carries, pops]
      split <;> simp
  | _ => simp [carries]

end Op

-- The shapes before and behind an instruction fit what it takes and leaves, and so does the
-- shape where it jumps to, which lies ahead.
def Instr.Agrees (shapes : Nat → Shape) (index : Nat) (instr : Instr) : Prop :=
  ∃ rest, shapes index = instr.op.takes ++ rest ∧
    (instr.op.falls = true → shapes (index + instr.len) = instr.op.leaves ++ rest) ∧
    (∀ target, instr.op.target? = some target →
      index < target ∧ shapes target = instr.op.carries ++ rest) ∧
    (instr.op = .ret → rest = [])

namespace Code

-- One shape for each place, on which all paths agree.
structure Shaped (code : Code) (shapes : Nat → Shape) : Prop where
  first : shapes 0 = []
  agrees : ∀ index instr, code.instr? index = some instr → instr.Agrees shapes index

-- Longer code needs a shape only for its new end, which is free if nothing falls through to it.
theorem Shaped.append {code : Code} {shapes : Nat → Shape} (h : code.Shaped shapes)
    (hlaid : code.Laid) {instr : Instr} {chunks : List Chunk} {rest after : Shape}
    (hlen : instr.len = 1 + chunks.length) (htarget : instr.op.target? = none)
    (htop : shapes code.size = instr.op.takes ++ rest)
    (hafter : instr.op.falls = true → after = instr.op.leaves ++ rest)
    (hret : instr.op = .ret → rest = []) :
    (code.append instr chunks).Shaped
      (Function.update shapes (code.append instr chunks).size after) := by
  have hsize : (code.append instr chunks).size = code.size + instr.len := by
    rw [size_append_block, hlen]
  have hkeep : ∀ index, index ≤ code.size →
      Function.update shapes (code.append instr chunks).size after index = shapes index := by
    intro index hle
    exact Function.update_of_ne (by omega) _ _
  refine ⟨by rw [hkeep 0 (by omega), h.first], ?_⟩
  intro index found hfound
  rcases instr?_append.mp hfound with hold | ⟨rfl, rfl⟩
  · obtain ⟨below, hbefore, hnext, hjump, hend⟩ := h.agrees index found hold
    have hplaced := hlaid.placed index found hold
    have hfits := hplaced.next.le_size
    refine ⟨below, ?_, ?_, ?_, hend⟩
    · rw [hkeep index (by omega), hbefore]
    · intro hfalls
      rw [hkeep _ hfits, hnext hfalls]
    · intro target ht
      rw [hkeep target (hplaced.target target ht).le_size]
      exact hjump target ht
  · refine ⟨rest, ?_, ?_, ?_, hret⟩
    · rw [hkeep _ (Nat.le_refl _), htop]
    · intro hfalls
      rw [← hsize, Function.update_self, hafter hfalls]
    · intro target ht
      rw [htarget] at ht
      cases ht

-- A branch may be pointed ahead at any place with the shape that it brings.
theorem Shaped.withTarget {code : Code} {shapes : Nat → Shape} (h : code.Shaped shapes)
    {index target : Nat} {instr : Instr} {op : Op} {rest : Shape}
    (hinstr : code.instr? index = some instr) (hop : instr.op.withTarget? target = some op)
    (hbefore : shapes index = instr.op.takes ++ rest) (hlt : index < target)
    (htarget : shapes target = instr.op.carries ++ rest) :
    (code.setOp index op).Shaped shapes := by
  obtain ⟨hopTarget, hopBranch, -, htakes, hleaves, hcarries, hfalls, -⟩ :=
    Op.withTarget?_eq_some hop
  refine ⟨h.first, ?_⟩
  intro other found hfound
  obtain ⟨old, hold, hlen, -, hne, hself⟩ := instr?_setOp hfound
  by_cases he : other = index
  · subst he
    rw [hinstr, Option.some.injEq] at hold
    subst hold
    obtain ⟨below, hbelow, hfall, -, -⟩ := h.agrees other instr hinstr
    have hsame : below = rest := List.append_cancel_left (hbelow.symm.trans hbefore)
    subst hsame
    refine ⟨below, ?_, ?_, ?_, ?_⟩
    · rw [hself rfl, htakes, hbefore]
    · rw [hself rfl, hlen, hfalls, hleaves]
      exact hfall
    · intro target' htarget'
      rw [hself rfl, hopTarget, Option.some.injEq] at htarget'
      subst htarget'
      rw [hself rfl, hcarries]
      exact ⟨hlt, htarget⟩
    · intro hret
      rw [← hself rfl, hret] at hopBranch
      cases hopBranch
  · rw [hne he]
    exact h.agrees other old hold

-- A control path comes to a place with some depth of the stack.
inductive Reaches (code : Code) : Nat → Nat → Prop
  | start : Reaches code 0 0
  | next {index depth : Nat} {instr : Instr} (path : Reaches code index depth)
      (hinstr : code.instr? index = some instr) (hpops : instr.op.pops ≤ depth)
      (hfalls : instr.op.falls = true) :
      Reaches code (index + instr.len) (depth - instr.op.pops + instr.op.pushes)
  | jump {index depth target : Nat} {instr : Instr} (path : Reaches code index depth)
      (hinstr : code.instr? index = some instr) (hpops : instr.op.pops ≤ depth)
      (htarget : instr.op.target? = some target) :
      Reaches code target (depth - instr.op.pops + instr.op.carries.length)

-- No path takes from an empty stack, falls off the code, jumps back or nowhere, or returns with
-- other than one value, and all paths into an instruction come with one depth.
structure Balanced (code : Code) : Prop where
  instr : ∀ index depth, code.Reaches index depth →
    ∃ instr, code.instr? index = some instr ∧ instr.op.pops ≤ depth ∧
      (instr.op.isBranch = true → ∃ target, instr.op.target? = some target ∧ index < target) ∧
      (instr.op = .ret → depth = 1)
  joins : ∀ index depth other, code.Reaches index depth → code.Reaches index other →
    depth = other

theorem Complete.instr?_next {code : Code} (hcomplete : code.Complete) {index : Nat}
    {instr : Instr} (hinstr : code.instr? index = some instr) (hfalls : instr.op.falls = true) :
    (code.instr? (index + instr.len)).isSome := by
  rcases (hcomplete.laid.placed index instr hinstr).next with hsize | hsome
  · rw [hcomplete.ret_of_end hinstr hsize] at hfalls
    cases hfalls
  · exact hsome

theorem Complete.instr?_target {code : Code} (hcomplete : code.Complete) {index target : Nat}
    {instr : Instr} (hinstr : code.instr? index = some instr)
    (htarget : instr.op.target? = some target) : (code.instr? target).isSome := by
  obtain ⟨target', htarget', hlt⟩ := hcomplete.target index instr hinstr
    (Op.isBranch_of_target? htarget)
  rw [htarget, Option.some.injEq] at htarget'
  subst htarget'
  have hstart := (hcomplete.laid.placed index instr hinstr).target target htarget
  exact Option.isSome_iff_exists.mpr (hstart.exists_instr? hlt)

theorem Complete.instr?_zero {code : Code} (hcomplete : code.Complete) :
    (code.instr? 0).isSome := by
  obtain ⟨last, instr, hlast, -, -⟩ := hcomplete.returns
  have hlt := lt_size_of_instr? hlast
  exact Option.isSome_iff_exists.mpr (hcomplete.laid.first.exists_instr? (by omega))

section Paths

variable {code : Code} {shapes : Nat → Shape} (hcomplete : code.Complete)
  (hshaped : code.Shaped shapes)

include hcomplete hshaped

-- A path comes to an instruction, with the depth of the shape there.
theorem Shaped.length_of_reaches {index depth : Nat} (h : code.Reaches index depth) :
    depth = (shapes index).length ∧ (code.instr? index).isSome := by
  induction h with
  | start => exact ⟨by simp [hshaped.first], hcomplete.instr?_zero⟩
  | @next index depth instr path hinstr hpops hfalls ih =>
      obtain ⟨rest, hbefore, hnext, -, -⟩ := hshaped.agrees index instr hinstr
      refine ⟨?_, hcomplete.instr?_next hinstr hfalls⟩
      rw [hnext hfalls, ih.1, hbefore]
      simp only [List.length_append, Op.length_takes, Op.length_leaves]
      omega
  | @jump index depth target instr path hinstr hpops htarget ih =>
      obtain ⟨rest, hbefore, -, hjump, -⟩ := hshaped.agrees index instr hinstr
      refine ⟨?_, hcomplete.instr?_target hinstr htarget⟩
      rw [(hjump target htarget).2, ih.1, hbefore]
      simp only [List.length_append, Op.length_takes]
      omega

theorem Shaped.balanced : code.Balanced := by
  constructor
  · intro index depth hreaches
    obtain ⟨hdepth, hsome⟩ := hshaped.length_of_reaches hcomplete hreaches
    obtain ⟨instr, hinstr⟩ := Option.isSome_iff_exists.mp hsome
    obtain ⟨rest, hbefore, -, hjump, hret⟩ := hshaped.agrees index instr hinstr
    refine ⟨instr, hinstr, ?_, ?_, ?_⟩
    · rw [hdepth, hbefore, List.length_append, Op.length_takes]
      omega
    · intro hbranch
      obtain ⟨target, htarget, -⟩ := hcomplete.target index instr hinstr hbranch
      exact ⟨target, htarget, (hjump target htarget).1⟩
    · intro hop
      rw [hdepth, hbefore, hret hop, hop]
      rfl
  · intro index depth other hreaches hother
    rw [(hshaped.length_of_reaches hcomplete hreaches).1,
      (hshaped.length_of_reaches hcomplete hother).1]

end Paths

end Code

end FormulaCode
