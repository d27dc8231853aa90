import FormulaCode.Proofs.Code.Threading
import FormulaCode.Proofs.Code.Walk
import Mathlib.Algebra.Order.BigOperators.Group.Finset
import Mathlib.Logic.Relation

namespace FormulaCode

open Relation

namespace Op

-- What a passed jump could pass, the one that passed it can pass too.
theorem threadThrough?_trans {jump landing far : Op} {next last : Nat}
    (h : jump.threadThrough? landing = some next) (hfar : landing.threadThrough? far = some last) :
    jump.threadThrough? far = some last := by
  unfold threadThrough? at h
  split at h
  · unfold threadThrough? at hfar
    split at hfar
    · exact hfar
    · contradiction
    · contradiction
    · cases hfar
  · rename_i jump landing
    by_cases hkeep : (!jump.popOnBranch && !landing.popOnBranch) = true
    · simp only [Bool.and_eq_true, Bool.not_eq_true'] at hkeep
      cases far <;> simp_all [threadThrough?]
    · rw [if_neg hkeep] at h
      cases h
  · rename_i jump landing
    by_cases hkeep : (!jump.popOnBranch && !landing.popOnBranch) = true
    · simp only [Bool.and_eq_true, Bool.not_eq_true'] at hkeep
      cases far <;> simp_all [threadThrough?]
    · rw [if_neg hkeep] at h
      cases h
  · cases h

-- What a jump can pass does not depend on where it leads.
theorem threadThrough?_withTarget? {op jump : Op} {target : Nat}
    (h : op.withTarget? target = some jump) (landing : Op) :
    jump.threadThrough? landing = op.threadThrough? landing := by
  cases op with
  | branchIfFalse branch | branchIfTrue branch | goto old =>
      cases h
      cases landing <;> rfl
  | _ => cases h

-- Whether a jump can be passed does not depend on where it leads either, and passing it leads
-- there.
theorem threadThrough?_of_withTarget? {op landing : Op} {target start : Nat}
    (h : op.withTarget? target = some landing) (hstart : op.target? = some start) (jump : Op) :
    jump.threadThrough? landing = (jump.threadThrough? op).map fun _ => target := by
  cases op with
  | goto old =>
      cases h
      cases hstart
      cases jump <;> rfl
  | branchIfFalse branch | branchIfTrue branch =>
      cases h
      simp only [target?] at hstart
      cases jump with
      | branchIfFalse other | branchIfTrue other =>
          cases hpop : other.popOnBranch <;> cases hkeep : branch.popOnBranch <;>
            simp [threadThrough?, hstart, hpop, hkeep]
      | _ => rfl
  | _ => cases h

theorem withTarget?_withTarget? {op jump : Op} {target : Nat}
    (h : op.withTarget? target = some jump) (next : Nat) :
    jump.withTarget? next = op.withTarget? next := by
  cases op with
  | branchIfFalse branch | branchIfTrue branch | goto old =>
      cases h
      rfl
  | _ => cases h

theorem withTarget?_target {op : Op} {target : Nat} (h : op.target? = some target) :
    op.withTarget? target = some op := by
  cases op with
  | branchIfFalse branch | branchIfTrue branch =>
      simp only [target?] at h
      simp [withTarget?, ← h]
  | goto old =>
      simp only [target?] at h
      simp [withTarget?, h]
  | _ => cases h

end Op

namespace Code

-- The place that a jump may go on to from a place where it lands.
def passes? (code : Code) (jump : Op) (place : Nat) : Option Nat := do
  let landing ← code.instr? place
  jump.threadThrough? landing.op

-- Following the jumps from a place on, as far as the jump that lands there may pass them.
inductive ChainEnd (code : Code) (jump : Op) : Nat → Nat → Prop
  | stop {place : Nat} (h : code.passes? jump place = none) : ChainEnd code jump place place
  | pass {place next last : Nat} (h : code.passes? jump place = some next)
      (rest : ChainEnd code jump next last) : ChainEnd code jump place last

-- Part of such a chain.
abbrev Follows (code : Code) (jump : Op) : Nat → Nat → Prop :=
  ReflTransGen fun place next => code.passes? jump place = some next

theorem Follows.chainEnd {code : Code} {jump : Op} {place last : Nat}
    (h : code.Follows jump place last) (hend : code.passes? jump last = none) :
    code.ChainEnd jump place last := by
  induction h using ReflTransGen.head_induction_on with
  | refl => exact .stop hend
  | head hpass _ ih => exact .pass hpass ih

-- Every branch leads ahead, also where the walk does not come.
def Ahead (code : Code) : Prop :=
  ∀ index instr, code.instr? index = some instr → ∀ target ∈ instr.op.target?, index < target

instance (code : Code) : Decidable code.Ahead :=
  decidable_of_iff (∀ index < code.size, ∀ instr ∈ code.instr? index,
      ∀ target ∈ instr.op.target?, index < target)
    ⟨fun h index instr hinstr => h index (lt_size_of_instr? hinstr) instr hinstr,
      fun h index _ instr hinstr => h index instr hinstr⟩

-- The loop of the passes, with no bound on their number.
inductive Threads : Code → Code × Nat → Prop
  | settled {code : Code} (h : code.threadOnce.2 = 0) : Threads code (code.threadOnce.1, 0)
  | again {code done : Code} {more : Nat} (h : code.threadOnce.2 ≠ 0)
      (rest : Threads code.threadOnce.1 (done, more)) :
      Threads code (done, code.threadOnce.2 + more)

-- The same loop where a place has 32 bits. There is no end if a pass comes to nothing.
inductive ThreadsChecked : Code → Code × Nat → Prop
  | settled {code done : Code} (h : code.threadOnce? = some (done, 0)) : ThreadsChecked code (done, 0)
  | again {code once done : Code} {count more : Nat} (h : code.threadOnce? = some (once, count))
      (hcount : count ≠ 0) (rest : ThreadsChecked once (done, more)) :
      ThreadsChecked code (done, count + more)

section Steps

-- The places of the walk.
def starts (code : Code) : List Nat :=
  code.walk.map Prod.fst

theorem mem_starts {code : Code} {index : Nat} :
    index ∈ code.starts ↔ ∃ instr, (index, instr) ∈ code.walk := by
  simp [starts]

theorem starts_redirect {code : Code} {place next : Nat} (h : code.shortcut? place = some next) :
    (code.redirect place next).starts = code.starts := by
  obtain ⟨-, -, -, op, -, -, -, -, -, -, -, heq⟩ := shortcut?_eq_some h
  rw [heq, starts, walk, walkFrom_setOp, List.map_map]
  rfl

-- A number of branches of the walk take their shortcuts, one after the other.
inductive Shortens : Nat → Code → Code → Prop
  | refl (code : Code) : Shortens 0 code code
  | step {count : Nat} {code done : Code} {index next : Nat} (hmem : index ∈ code.starts)
      (hnext : code.shortcut? index = some next)
      (rest : Shortens count (code.redirect index next) done) : Shortens (count + 1) code done

theorem Shortens.trans {code middle done : Code} {count more : Nat}
    (h : Shortens count code middle) (hmore : Shortens more middle done) :
    Shortens (count + more) code done := by
  induction h with
  | refl code =>
      rw [Nat.zero_add]
      exact hmore
  | step hmem hnext _ ih =>
      rw [Nat.add_right_comm]
      exact .step hmem hnext (ih hmore)

theorem Shortens.eq_of_zero {code done : Code} (h : Shortens 0 code done) : done = code := by
  cases h
  rfl

theorem foldl_takeShortcut (items : List (Nat × Instr)) (code : Code) (count : Nat)
    (hitems : ∀ item ∈ items, item.1 ∈ code.starts) :
    ∃ more, (items.foldl takeShortcut (code, count)).2 = count + more ∧
      Shortens more code (items.foldl takeShortcut (code, count)).1 ∧
      (more = 0 → ∀ item ∈ items, code.shortcut? item.1 = none) := by
  induction items generalizing code count with
  | nil => exact ⟨0, rfl, .refl code, by simp⟩
  | cons item items ih =>
      obtain ⟨hitem, hitems⟩ := List.forall_mem_cons.mp hitems
      rw [List.foldl_cons]
      cases hnext : code.shortcut? item.1 with
      | none =>
          rw [show takeShortcut (code, count) item = (code, count) by simp [takeShortcut, hnext]]
          obtain ⟨more, hcount, hsteps, hnone⟩ := ih code count hitems
          exact ⟨more, hcount, hsteps, fun hzero => List.forall_mem_cons.mpr ⟨hnext, hnone hzero⟩⟩
      | some next =>
          rw [show takeShortcut (code, count) item = (code.redirect item.1 next, count + 1) by
            simp [takeShortcut, hnext]]
          have hkept : ∀ item' ∈ items, item'.1 ∈ (code.redirect item.1 next).starts := by
            rw [starts_redirect hnext]
            exact hitems
          obtain ⟨more, hcount, hsteps, -⟩ := ih _ (count + 1) hkept
          exact ⟨more + 1, by omega, .step hitem hnext hsteps, by simp⟩

-- A pass takes as many shortcuts as it counts. It counts none only where there are none.
theorem threadOnce_shortens (code : Code) :
    Shortens code.threadOnce.2 code code.threadOnce.1 ∧
      (code.threadOnce.2 = 0 → ∀ index ∈ code.starts, code.shortcut? index = none) := by
  have hitems : ∀ item ∈ code.walk, item.1 ∈ code.starts := fun item hitem =>
    List.mem_map_of_mem hitem
  obtain ⟨more, hcount, hsteps, hnone⟩ := foldl_takeShortcut code.walk code 0 hitems
  have honce : code.threadOnce = code.walk.foldl takeShortcut (code, 0) := rfl
  rw [honce, hcount, Nat.zero_add]
  refine ⟨hsteps, fun hzero index hindex => ?_⟩
  obtain ⟨instr, hmem⟩ := mem_starts.mp hindex
  exact hnone hzero _ hmem

theorem threadOnce_of_settled {code : Code}
    (h : ∀ index ∈ code.starts, code.shortcut? index = none) : code.threadOnce = (code, 0) := by
  obtain ⟨hsteps, -⟩ := threadOnce_shortens code
  generalize code.threadOnce = once at hsteps
  obtain ⟨once, count⟩ := once
  cases hsteps with
  | refl => rfl
  | step hmem hnext _ =>
      rw [h _ hmem] at hnext
      cases hnext

theorem threadWithin_shortens (passes : Nat) (code : Code) :
    Shortens (code.threadWithin passes).2 code (code.threadWithin passes).1 := by
  induction passes generalizing code with
  | zero => exact .refl code
  | succ passes ih =>
      have honce := (threadOnce_shortens code).1
      simp only [threadWithin]
      split
      · rename_i hzero
        rw [hzero] at honce
        exact honce
      · exact honce.trans (ih _)

end Steps

section Measure

theorem Ahead.redirect {code : Code} (h : code.Ahead) {index next : Nat}
    (hnext : code.shortcut? index = some next) : (code.redirect index next).Ahead := by
  obtain ⟨jump, target, landing, op, hjump, htarget, hlanding, hthrough, -, -, hop, heq⟩ :=
    shortcut?_eq_some hnext
  have hfirst := h index jump hjump target htarget
  have hsecond := h target landing hlanding next (Op.threadThrough?_eq_some hthrough).1
  rw [heq]
  intro other instr hinstr place hplace
  obtain ⟨old, hold, -, -, hne, hself⟩ := instr?_setOp hinstr
  by_cases he : other = index
  · rw [hself he, (Op.withTarget?_eq_some hop).1] at hplace
    cases hplace
    omega
  · rw [hne he] at hplace
    exact h other old hold place hplace

-- How far the target at a place is from the end of the code.
def room (code : Code) (index : Nat) : Nat :=
  match (code.instr? index).bind (·.op.target?) with
  | some target => code.size - target
  | none => 0

def totalRoom (code : Code) : Nat :=
  ∑ index ∈ Finset.range code.size, code.room index

theorem totalRoom_le (code : Code) : code.totalRoom ≤ code.size * code.size := by
  have hle : ∀ index ∈ Finset.range code.size, code.room index ≤ code.size := by
    intro index _
    unfold room
    split
    · omega
    · omega
  calc code.totalRoom ≤ ∑ _index ∈ Finset.range code.size, code.size := Finset.sum_le_sum hle
    _ = code.size * code.size := by simp

-- A shortcut leads further ahead, from a target that lies within the code.
theorem Ahead.totalRoom_redirect {code : Code} (h : code.Ahead) {index next : Nat}
    (hnext : code.shortcut? index = some next) :
    (code.redirect index next).totalRoom < code.totalRoom := by
  obtain ⟨jump, target, landing, op, hjump, htarget, hlanding, hthrough, -, -, hop, heq⟩ :=
    shortcut?_eq_some hnext
  have hahead := h target landing hlanding next (Op.threadThrough?_eq_some hthrough).1
  have hlt := lt_size_of_instr? hlanding
  have hself : (code.setOp index op).room index < code.room index := by
    simp only [room, instr?_setOp_self op hjump, hjump, Option.bind_some, htarget,
      (Op.withTarget?_eq_some hop).1, size_setOp]
    omega
  have hother : ∀ other, other ≠ index → (code.setOp index op).room other = code.room other := by
    intro other hne
    simp only [room, instr?_setOp_of_ne code op hne, size_setOp]
  rw [heq, totalRoom, size_setOp]
  refine Finset.sum_lt_sum (fun other _ => ?_)
    ⟨index, Finset.mem_range.mpr (lt_size_of_instr? hjump), hself⟩
  by_cases he : other = index
  · subst he
    exact Nat.le_of_lt hself
  · exact Nat.le_of_eq (hother other he)

theorem Shortens.ahead {code done : Code} {count : Nat} (h : Shortens count code done)
    (hahead : code.Ahead) : done.Ahead ∧ count + done.totalRoom ≤ code.totalRoom := by
  induction h with
  | refl code => exact ⟨hahead, by omega⟩
  | step hmem hnext _ ih =>
      have hless := hahead.totalRoom_redirect hnext
      obtain ⟨hdone, hroom⟩ := ih (hahead.redirect hnext)
      exact ⟨hdone, by omega⟩

-- There is a pass left over when nothing is left to shorten.
theorem Ahead.threads_threadWithin {code : Code} (h : code.Ahead) {passes : Nat}
    (hpasses : code.totalRoom < passes) : Threads code (code.threadWithin passes) := by
  induction passes generalizing code with
  | zero => omega
  | succ passes ih =>
      by_cases hzero : code.threadOnce.2 = 0
      · have hlast : code.threadWithin (passes + 1) = (code.threadOnce.1, 0) := by
          simp only [threadWithin, if_pos hzero]
        rw [hlast]
        exact .settled hzero
      · have hnext : code.threadWithin (passes + 1) =
            ((code.threadOnce.1.threadWithin passes).1,
              code.threadOnce.2 + (code.threadOnce.1.threadWithin passes).2) := by
          simp only [threadWithin, if_neg hzero]
        obtain ⟨honce, hroom⟩ := (threadOnce_shortens code).1.ahead h
        rw [hnext]
        exact .again hzero (ih honce (by omega))

theorem Ahead.threads_thread {code : Code} (h : code.Ahead) : Threads code code.thread :=
  h.threads_threadWithin (Nat.lt_succ_of_le (totalRoom_le code))

-- The loop ends with a pass that finds nothing.
theorem Threads.settled_end {code : Code} {result : Code × Nat} (h : Threads code result) :
    ∀ index ∈ result.1.starts, result.1.shortcut? index = none := by
  induction h with
  | @settled code hzero =>
      obtain ⟨hsteps, hnone⟩ := threadOnce_shortens code
      rw [hzero] at hsteps
      rw [hsteps.eq_of_zero]
      exact hnone hzero
  | again hzero rest ih => exact ih

end Measure

section Addressable

variable {code : Code}

-- No length is changed.
theorem Addressable.redirect (h : code.Addressable) {index next : Nat}
    (hnext : code.shortcut? index = some next) : (code.redirect index next).Addressable := by
  obtain ⟨-, -, -, op, -, -, -, -, -, -, -, heq⟩ := shortcut?_eq_some hnext
  rw [heq]
  simpa only [Addressable, walk, walkFrom_setOp, List.forall_mem_map, Instr.len_setOpAt] using h

theorem Addressable.threadOnce (h : code.Addressable) : code.threadOnce.1.Addressable :=
  threadOnce_induction (fun _ _ _ hplaces hnext => hplaces.redirect hnext) code h

theorem Addressable.thread (h : code.Addressable) : code.thread.1.Addressable :=
  thread_induction (fun _ _ _ hplaces hnext => hplaces.redirect hnext) code h

theorem threadOnce?_of_addressable (h : code.Addressable) :
    code.threadOnce? = some code.threadOnce := by
  rw [threadOnce?, walk?_of_addressable h]
  rfl

theorem threadOnce?_of_not_addressable (h : ¬code.Addressable) : code.threadOnce? = none := by
  rw [threadOnce?, walk?_of_not_addressable h]
  rfl

theorem threadWithin?_eq (h : code.Addressable) (passes : Nat) :
    code.threadWithin? passes = some (code.threadWithin passes) := by
  induction passes generalizing code with
  | zero => rfl
  | succ passes ih =>
      simp only [threadWithin?, threadWithin, threadOnce?_of_addressable h, Option.bind_eq_bind,
        Option.bind_some, ih h.threadOnce]
      split <;> rfl

theorem thread?_of_addressable (h : code.Addressable) : code.thread? = some code.thread :=
  threadWithin?_eq h _

-- The first pass comes to nothing.
theorem thread?_of_not_addressable (h : ¬code.Addressable) : code.thread? = none := by
  rw [thread?, threadWithin?, threadOnce?_of_not_addressable h]
  rfl

-- Where every place has 32 bits, the loop is the same.
theorem Threads.checked {result : Code × Nat} (h : Threads code result) (hplaces : code.Addressable) :
    ThreadsChecked code result := by
  induction h with
  | settled hzero => exact .settled (by rw [threadOnce?_of_addressable hplaces, ← hzero])
  | again hcount _ ih =>
      exact .again (threadOnce?_of_addressable hplaces) hcount (ih hplaces.threadOnce)

theorem not_threadsChecked (h : ¬code.Addressable) (result : Code × Nat) :
    ¬ThreadsChecked code result := by
  intro hthreads
  cases hthreads with
  | settled hpass | again hpass =>
      rw [threadOnce?_of_not_addressable h] at hpass
      cases hpass

-- Code that is laid out without gaps ends where its last instruction ends.
theorem Laid.addressable (h : code.Laid) (hsize : code.size < UInt32.size) : code.Addressable := by
  rintro ⟨index, instr⟩ hmem
  have hend := (h.placed index instr ((h.mem_walk index instr).mp hmem)).next.le_size
  exact Nat.lt_of_le_of_lt hend hsize

end Addressable

section Rerouted

variable {code done : Code}

-- A branch moved on along its chain. Other operations stay as they are.
def Advances (code : Code) (old op : Op) : Prop :=
  match old.target? with
  | none => op = old
  | some target => ∃ place, code.Follows old target place ∧ old.withTarget? place = some op

theorem Advances.refl (code : Code) (op : Op) : code.Advances op op := by
  unfold Advances
  split
  · rfl
  · rename_i target htarget
    exact ⟨target, .refl, Op.withTarget?_target htarget⟩

-- A jump that passes a branch which has been moved on could have followed that branch.
theorem Advances.follows {jump old op : Op} {next : Nat} (h : code.Advances old op)
    (hnext : jump.threadThrough? op = some next) :
    ∃ first, jump.threadThrough? old = some first ∧ code.Follows jump first next := by
  unfold Advances at h
  split at h
  · subst h
    exact ⟨next, hnext, .refl⟩
  · rename_i target htarget
    obtain ⟨place, hfollows, hop⟩ := h
    rw [Op.threadThrough?_of_withTarget? hop htarget, Option.map_eq_some_iff] at hnext
    obtain ⟨first, hfirst, rfl⟩ := hnext
    refine ⟨first, hfirst, ?_⟩
    rw [(Op.threadThrough?_eq_some hfirst).1, Option.some.injEq] at htarget
    subst htarget
    refine ReflTransGen.mono ?_ _ _ hfollows
    intro here there hpass
    obtain ⟨far, hfar, hfarther⟩ := Option.bind_eq_some_iff.mp hpass
    exact Option.bind_eq_some_iff.mpr ⟨far, hfar, Op.threadThrough?_trans hfirst hfarther⟩

theorem Advances.threadThrough?_eq_none {jump old op : Op} (h : code.Advances old op)
    (hnone : jump.threadThrough? op = none) : jump.threadThrough? old = none := by
  unfold Advances at h
  split at h
  · rw [← h, hnone]
  · rename_i target htarget
    obtain ⟨place, -, hop⟩ := h
    rw [Op.threadThrough?_of_withTarget? hop htarget, Option.map_eq_none_iff] at hnone
    exact hnone

-- The code with branches of the walk moved on along their chains. Nothing else is different.
structure Rerouted (code done : Code) : Prop where
  starts : done.starts = code.starts
  unwalked : ∀ index, index ∉ code.starts → done.records[index]? = code.records[index]?
  walked : ∀ index instr, (index, instr) ∈ code.walk →
    ∃ op, code.Advances instr.op op ∧ done.instr? index = some { instr with op }

theorem Rerouted.refl (code : Code) : Rerouted code code where
  starts := rfl
  unwalked := fun _ _ => rfl
  walked := fun _ instr hmem => ⟨instr.op, .refl code instr.op, (instr?_of_mem_walk hmem).1⟩

theorem Rerouted.instr?_eq (h : Rerouted code done) {index : Nat} {instr : Instr}
    (hinstr : code.instr? index = some instr) :
    ∃ op, code.Advances instr.op op ∧ done.instr? index = some { instr with op } := by
  by_cases hmem : index ∈ code.starts
  · obtain ⟨found, hmem⟩ := mem_starts.mp hmem
    obtain rfl := Option.some.inj (hinstr.symm.trans (instr?_of_mem_walk hmem).1)
    exact h.walked index instr hmem
  · refine ⟨instr.op, .refl code instr.op, ?_⟩
    rw [instr?_eq_some_iff] at hinstr ⊢
    rw [h.unwalked index hmem, hinstr]

theorem Rerouted.instr?_isSome (h : Rerouted code done) {index : Nat} {found : Instr}
    (hfound : done.instr? index = some found) :
    ∃ instr, code.instr? index = some instr ∧ code.Advances instr.op found.op := by
  by_cases hmem : index ∈ code.starts
  · obtain ⟨instr, hmem⟩ := mem_starts.mp hmem
    obtain ⟨op, hop, hdone⟩ := h.walked index instr hmem
    obtain rfl := Option.some.inj (hfound.symm.trans hdone)
    exact ⟨instr, (instr?_of_mem_walk hmem).1, hop⟩
  · refine ⟨found, ?_, .refl code found.op⟩
    rw [instr?_eq_some_iff] at hfound ⊢
    rw [← h.unwalked index hmem, hfound]

theorem Rerouted.follows (h : Rerouted code done) {jump : Op} {place next : Nat}
    (hpass : done.passes? jump place = some next) : code.Follows jump place next := by
  obtain ⟨landing, hlanding, hthrough⟩ := Option.bind_eq_some_iff.mp hpass
  obtain ⟨old, hold, hadvances⟩ := h.instr?_isSome hlanding
  obtain ⟨first, hfirst, hfollows⟩ := hadvances.follows hthrough
  exact .head (Option.bind_eq_some_iff.mpr ⟨old, hold, hfirst⟩) hfollows

-- Where a jump cannot go on, it could not before.
theorem Rerouted.passes?_eq_none (h : Rerouted code done) {jump : Op} {place : Nat}
    (hnone : done.passes? jump place = none) : code.passes? jump place = none := by
  cases hinstr : code.instr? place with
  | none => simp [passes?, hinstr]
  | some landing =>
      obtain ⟨op, hadvances, hdone⟩ := h.instr?_eq hinstr
      simp only [passes?, hdone, Option.bind_eq_bind, Option.bind_some] at hnone
      simp only [passes?, hinstr, Option.bind_eq_bind, Option.bind_some]
      exact hadvances.threadThrough?_eq_none hnone

-- A shortcut moves a branch on along the chain that it had in the first code.
theorem Rerouted.advances (h : Rerouted code done) {old jump op : Op} {target next : Nat}
    (hadvances : code.Advances old jump) (htarget : jump.target? = some target)
    (hpass : done.passes? jump target = some next) (hop : jump.withTarget? next = some op) :
    code.Advances old op := by
  unfold Advances at hadvances ⊢
  split at hadvances
  · rename_i hnone
    rw [hadvances, hnone] at htarget
    cases htarget
  · obtain ⟨place, hfollows, hjump⟩ := hadvances
    obtain rfl : place = target := by
      rw [(Op.withTarget?_eq_some hjump).1] at htarget
      exact Option.some.inj htarget
    refine ⟨next, hfollows.trans (h.follows ?_), ?_⟩
    · simpa only [passes?, Op.threadThrough?_withTarget? hjump] using hpass
    · rw [← Op.withTarget?_withTarget? hjump, hop]

theorem Rerouted.redirect (h : Rerouted code done) {index next : Nat}
    (hmem : index ∈ done.starts) (hnext : done.shortcut? index = some next) :
    Rerouted code (done.redirect index next) := by
  have hstarts := starts_redirect hnext
  obtain ⟨jump, target, landing, op, hjump, htarget, hlanding, hthrough, -, -, hop, heq⟩ :=
    shortcut?_eq_some hnext
  rw [heq] at hstarts ⊢
  rw [h.starts] at hmem hstarts
  refine ⟨hstarts, ?_, ?_⟩
  · intro other hother
    have hne : index ≠ other := fun he => hother (he ▸ hmem)
    rw [setOp_of_instr? op hjump, Array.getElem?_setIfInBounds_ne hne]
    exact h.unwalked other hother
  · intro other instr hinstr
    obtain ⟨old, hadvances, hold⟩ := h.walked other instr hinstr
    by_cases he : other = index
    · subst he
      obtain rfl := Option.some.inj (hjump.symm.trans hold)
      have hpass : done.passes? old target = some next :=
        Option.bind_eq_some_iff.mpr ⟨landing, hlanding, hthrough⟩
      exact ⟨op, h.advances hadvances htarget hpass hop, (instr?_setOp_self op hold).trans rfl⟩
    · exact ⟨old, hadvances, by rw [instr?_setOp_of_ne done op he, hold]⟩

theorem Rerouted.shortens {count : Nat} {last : Code} (h : Rerouted code done)
    (hsteps : Shortens count done last) : Rerouted code last := by
  induction hsteps with
  | refl => exact h
  | step hmem hnext _ ih => exact ih (h.redirect hmem hnext)

end Rerouted

-- Where branches lead ahead, one without a shortcut is at the end of its chain.
theorem Ahead.passes?_eq_none {code : Code} (h : code.Ahead) {index target : Nat} {instr : Instr}
    (hinstr : code.instr? index = some instr) (htarget : instr.op.target? = some target)
    (hnone : code.shortcut? index = none) : code.passes? instr.op target = none := by
  rw [Option.eq_none_iff_forall_ne_some]
  intro next hpass
  obtain ⟨landing, hlanding, hthrough⟩ := Option.bind_eq_some_iff.mp hpass
  have hfirst := h index instr hinstr target htarget
  have hsecond := h target landing hlanding next (Op.threadThrough?_eq_some hthrough).1
  simp [shortcut?, hinstr, htarget, hlanding, hthrough] at hnone
  omega

-- What threading makes of code. Branches of the walk lead to the ends of the chains that they
-- had, and none of them lands on a jump that it could pass. Nothing else is different.
structure Threaded (code done : Code) : Prop where
  starts : done.starts = code.starts
  unwalked : ∀ index, index ∉ code.starts → done.records[index]? = code.records[index]?
  plain : ∀ index instr, (index, instr) ∈ code.walk → instr.op.target? = none →
    done.instr? index = some instr
  branch : ∀ index instr target, (index, instr) ∈ code.walk → instr.op.target? = some target →
    ∃ last op, code.ChainEnd instr.op target last ∧ instr.op.withTarget? last = some op ∧
      done.instr? index = some { instr with op }
  settled : ∀ index instr target, (index, instr) ∈ done.walk → instr.op.target? = some target →
    done.passes? instr.op target = none

theorem Rerouted.threaded {code done : Code} (h : Rerouted code done) (hahead : done.Ahead)
    (hnone : ∀ index ∈ done.starts, done.shortcut? index = none) : code.Threaded done := by
  have hsettled : ∀ index instr target, (index, instr) ∈ done.walk →
      instr.op.target? = some target → done.passes? instr.op target = none := by
    intro index instr target hmem htarget
    exact hahead.passes?_eq_none (instr?_of_mem_walk hmem).1 htarget
      (hnone index (mem_starts.mpr ⟨instr, hmem⟩))
  refine ⟨h.starts, h.unwalked, ?_, ?_, hsettled⟩
  · intro index instr hmem htarget
    obtain ⟨op, hadvances, hdone⟩ := h.walked index instr hmem
    simp only [Advances, htarget] at hadvances
    subst hadvances
    exact hdone
  · intro index instr target hmem htarget
    obtain ⟨op, hadvances, hdone⟩ := h.walked index instr hmem
    simp only [Advances, htarget] at hadvances
    obtain ⟨last, hfollows, hop⟩ := hadvances
    refine ⟨last, op, hfollows.chainEnd ?_, hop, hdone⟩
    -- The branch stands in the walk of the result with its new target.
    have hstart : index ∈ done.starts := h.starts ▸ mem_starts.mpr ⟨instr, hmem⟩
    obtain ⟨found, hfound⟩ := mem_starts.mp hstart
    obtain rfl := Option.some.inj (hdone.symm.trans (instr?_of_mem_walk hfound).1)
    have hend := hsettled index _ last hfound (Op.withTarget?_eq_some hop).1
    simp only [passes?, Op.threadThrough?_withTarget? hop] at hend
    exact h.passes?_eq_none hend

theorem thread_of_settled {code : Code}
    (h : ∀ index ∈ code.starts, code.shortcut? index = none) : code.thread = (code, 0) := by
  simp [thread, threadWithin, threadOnce_of_settled h]

-- In code whose branches lead ahead, the loop over the passes comes to an end if every place of the
-- walk has 32 bits. Then every branch of the walk has followed its chain, and another call finds
-- nothing to do. Code without gaps has such places. If an instruction leads the walk out of them,
-- there is no end to come to.
theorem thread_follows_chains (code : Code) (h : code.Ahead) :
    (code.Addressable → code.thread? = some code.thread ∧ ThreadsChecked code code.thread ∧
      code.Threaded code.thread.1 ∧ code.thread.1.thread? = some (code.thread.1, 0)) ∧
    (¬code.Addressable → code.thread? = none ∧ ∀ result, ¬ThreadsChecked code result) ∧
    (code.Laid → code.size < UInt32.size → code.Addressable) := by
  refine ⟨fun hplaces => ?_, fun hplaces => ?_, Laid.addressable⟩
  · have hthreads := h.threads_thread
    have hnone := hthreads.settled_end
    have hsteps : Shortens code.thread.2 code code.thread.1 := threadWithin_shortens _ code
    have hrerouted := (Rerouted.refl code).shortens hsteps
    refine ⟨thread?_of_addressable hplaces, hthreads.checked hplaces,
      hrerouted.threaded (hsteps.ahead h).1 hnone, ?_⟩
    rw [thread?_of_addressable hplaces.thread, thread_of_settled hnone]
  · exact ⟨thread?_of_not_addressable hplaces, not_threadsChecked hplaces⟩

-- The first branch lands on a jump that lies behind a text, where the walk does not come.
def relay : Code :=
  ⟨#[.instr ⟨.branchIfFalse ⟨some 2, false⟩, 1, 0⟩, .instr ⟨.pushString, 3, 1⟩,
    .instr ⟨.goto (some 5), 1, 2⟩, .text (Chunk.ofBytes []), .instr ⟨.ret, 1, 3⟩,
    .instr ⟨.branchIfFalse ⟨some 6, false⟩, 1, 4⟩, .instr ⟨.goto (some 7), 1, 5⟩,
    .instr ⟨.ret, 1, 6⟩]⟩

theorem thread_follows_chains_relay :
    relay.Ahead ∧ relay.Addressable ∧ relay.thread.2 = 3 ∧
      relay.thread.1.instr? 0 = some ⟨.branchIfFalse ⟨some 7, false⟩, 1, 0⟩ ∧
      relay.thread? = some relay.thread ∧ ThreadsChecked relay relay.thread ∧
      relay.Threaded relay.thread.1 ∧ relay.thread.1.thread? = some (relay.thread.1, 0) := by
  have hahead : relay.Ahead := by decide +kernel
  have hplaces : relay.Addressable := by decide +kernel
  exact ⟨hahead, hplaces, by decide +kernel, by decide +kernel,
    (thread_follows_chains relay hahead).1 hplaces⟩

-- From its second instruction this code leads to a place with 33 bits.
def runaway : Code :=
  ⟨#[.instr ⟨.ret, 1, 0⟩, .instr ⟨.ret, 0xFFFFFFFF, 0⟩]⟩

-- No branch leads back, as there is none, and still the code cannot be threaded.
theorem runaway_not_threaded :
    runaway.Ahead ∧ runaway.thread? = none ∧ ∀ result, ¬ThreadsChecked runaway result := by
  have hplaces : ¬runaway.Addressable := by decide +kernel
  exact ⟨by decide +kernel, thread?_of_not_addressable hplaces,
    not_threadsChecked hplaces⟩

end Code

end FormulaCode
