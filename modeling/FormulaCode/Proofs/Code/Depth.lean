import FormulaCode.Proofs.Code.Walk
import Mathlib.Control.Monad.Basic

namespace FormulaCode

-- A branch may be recorded if it leads ahead and brings the depth that is known there.
theorem Arrivals.exists_record {arrivals : Arrivals} {index place depth : Nat} (hlt : index < place)
    (hseen : ∀ seen, arrivals.lookup place = some seen → seen = depth) :
    ∃ next, arrivals.record index (some place) depth = .ok next := by
  simp only [record, if_neg (Nat.not_le.mpr hlt)]
  cases hlookup : arrivals.lookup place with
  | none => exact ⟨_, rfl⟩
  | some seen => exact ⟨arrivals, by simp [hseen seen hlookup]⟩

-- Once it is recorded, its target has its depth, and every other place has what it had.
theorem Arrivals.record_eq_ok {arrivals next : Arrivals} {index depth : Nat} {target : Option Nat}
    (h : arrivals.record index target depth = .ok next) :
    ∃ place, target = some place ∧ index < place ∧
      ∀ other d, next.lookup other = some d ↔
        arrivals.lookup other = some d ∨ (other = place ∧ d = depth) := by
  unfold record at h
  split at h
  · cases h
  rename_i place
  split at h
  · cases h
  rename_i hforward
  refine ⟨place, rfl, Nat.lt_of_not_le hforward, fun other d => ?_⟩
  split at h
  · rename_i seen hseen
    split at h
    · cases h
    · rename_i hsame
      cases h
      constructor
      · exact Or.inl
      · rintro (hlookup | ⟨rfl, rfl⟩)
        · exact hlookup
        · rw [hseen, Decidable.not_not.mp hsame]
  · rename_i hnone
    cases h
    by_cases hother : other = place
    · subst hother
      simp [hnone, eq_comm]
    · have hfalse : (other == place) = false := beq_false_of_ne hother
      simp [List.lookup_cons, hfalse, hother]

namespace Balance

theorem leave_of_plain (state : Balance) (index depth : Nat) {op : Op} (hfalls : op.falls = true)
    (hbranch : op.isBranch = false) :
    state.leave index op depth =
      .ok (state.arrivals, some (depth - op.pops + op.pushes)) := by
  cases op with
  | ret | goto target => cases hfalls
  | branchIfFalse branch | branchIfTrue branch => cases hbranch
  | _ => rfl

theorem leave_of_branch (state : Balance) (index : Nat) {op : Op} {depth : Nat}
    (hbranch : op.isBranch = true) (hpops : op.pops ≤ depth) :
    state.leave index op depth = do
      let arrivals ← state.arrivals.record index op.target? (depth - op.pops + op.carries.length)
      return (arrivals, if op.falls = true then some (depth - op.pops) else none) := by
  cases op with
  | branchIfFalse branch | branchIfTrue branch =>
      obtain ⟨target, pop⟩ := branch
      simp only [Op.pops] at hpops
      cases pop <;>
        simp [leave, Op.target?, Op.pops, Op.carries, Op.falls, Nat.sub_add_cancel hpops]
  | goto target => rfl
  | _ => cases hbranch

-- What a step over an instruction that is reached with some depth has checked and done.
structure Passes (state : Balance) (index : Nat) (op : Op) (depth : Nat) (next : Balance) :
    Prop where
  pops : op.pops ≤ depth
  returns : op = .ret → depth = 1
  forward : ∀ target, op.target? = some target → index < target
  depth_eq : next.depth = if op.falls = true then some (depth - op.pops + op.pushes) else none
  deepest_eq : next.deepest = max state.deepest (next.depth.getD 0)
  lookup_iff : ∀ place d, next.arrivals.lookup place = some d ↔
    state.arrivals.lookup place = some d ∨
      (op.target? = some place ∧ d = depth - op.pops + op.carries.length)

theorem passes_of_leave {state : Balance} {index depth : Nat} {op : Op} {arrivals : Arrivals}
    {after : Option Nat} (hpops : op.pops ≤ depth)
    (h : state.leave index op depth = .ok (arrivals, after)) :
    state.Passes index op depth ⟨arrivals, after, max state.deepest (after.getD 0)⟩ := by
  by_cases hbranch : op.isBranch = true
  · rw [leave_of_branch state index hbranch hpops] at h
    cases hrecord : state.arrivals.record index op.target?
        (depth - op.pops + op.carries.length) with
    | error e => simp [hrecord, bind, Except.bind] at h
    | ok recorded =>
        simp only [hrecord, bind, Except.bind, pure, Except.pure, Except.ok.injEq,
          Prod.mk.injEq] at h
        obtain ⟨rfl, rfl⟩ := h
        obtain ⟨place, htarget, hlt, hlookup⟩ := Arrivals.record_eq_ok hrecord
        refine ⟨hpops, ?_, ?_, ?_, rfl, ?_⟩
        · rintro rfl
          cases hbranch
        · intro target ht
          rw [htarget, Option.some.injEq] at ht
          exact ht ▸ hlt
        · rw [Op.pushes_of_isBranch hbranch]
          rfl
        · intro other d
          rw [hlookup, htarget, Option.some.injEq, eq_comm (a := place)]
  · rw [Bool.not_eq_true] at hbranch
    have htarget := Op.target?_of_not_isBranch hbranch
    by_cases hfalls : op.falls = true
    · rw [leave_of_plain state index depth hfalls hbranch] at h
      cases h
      refine ⟨hpops, ?_, by simp [htarget], by simp [hfalls], rfl, by simp [htarget]⟩
      rintro rfl
      cases hfalls
    · obtain rfl := Op.eq_ret_of_not_falls hbranch (Bool.not_eq_true _ ▸ hfalls)
      simp only [leave] at h
      split at h
      · cases h
      · rename_i hone
        cases h
        exact ⟨hpops, fun _ => Decidable.not_not.mp hone, by simp [htarget], rfl, rfl,
          by simp [htarget]⟩

theorem exists_leave {state : Balance} {index depth : Nat} {op : Op} (hpops : op.pops ≤ depth)
    (hret : op = .ret → depth = 1)
    (hbranch : op.isBranch = true → ∃ target, op.target? = some target ∧ index < target ∧
      ∀ seen, state.arrivals.lookup target = some seen →
        seen = depth - op.pops + op.carries.length) :
    ∃ arrivals after, state.leave index op depth = .ok (arrivals, after) := by
  by_cases h : op.isBranch = true
  · obtain ⟨target, htarget, hlt, hseen⟩ := hbranch h
    obtain ⟨arrivals, hrecord⟩ := Arrivals.exists_record hlt hseen
    rw [leave_of_branch state index h hpops, htarget, hrecord]
    exact ⟨arrivals, _, rfl⟩
  · rw [Bool.not_eq_true] at h
    by_cases hfalls : op.falls = true
    · exact ⟨_, _, leave_of_plain state index depth hfalls h⟩
    · obtain rfl := Op.eq_ret_of_not_falls h (Bool.not_eq_true _ ▸ hfalls)
      exact ⟨_, _, by simp only [leave, hret rfl]; rfl⟩

theorem step_eq_ok {state next : Balance} {index : Nat} {instr : Instr}
    (h : state.step (index, instr) = .ok next) :
    (state.arrive index = .ok none ∧ next = { state with depth := none }) ∨
      ∃ depth, state.arrive index = .ok (some depth) ∧ state.Passes index instr.op depth next := by
  simp only [step, bind, Except.bind] at h
  split at h
  · cases h
  rename_i arrived harrive
  split at h
  · cases h
    exact Or.inl ⟨harrive, rfl⟩
  · rename_i depth
    split at h
    · cases h
    rename_i hpops
    split at h
    · cases h
    rename_i answer hleave
    cases h
    exact Or.inr ⟨depth, harrive, passes_of_leave (Nat.le_of_not_lt hpops) hleave⟩

-- The depth of a place that is come to, falling through or by a branch.
def Knows (state : Balance) (index depth : Nat) : Prop :=
  state.depth = some depth ∨ state.arrivals.lookup index = some depth

theorem arrive_eq_ok {state : Balance} {index : Nat} {arrived : Option Nat}
    (h : state.arrive index = .ok arrived) (depth : Nat) :
    arrived = some depth ↔ state.Knows index depth := by
  unfold Knows
  cases hlookup : state.arrivals.lookup index with
  | none =>
      simp only [arrive, hlookup, Except.ok.injEq] at h
      simp [h]
  | some seen =>
      cases hdepth : state.depth with
      | none =>
          simp only [arrive, hlookup, hdepth, Except.ok.injEq] at h
          simp [← h]
      | some own =>
          simp only [arrive, hlookup, hdepth] at h
          split at h
          · cases h
          · rename_i hsame
            rw [← Except.ok.inj h, Decidable.not_not.mp hsame, or_self]

theorem exists_arrive {state : Balance} {index : Nat}
    (h : ∀ depth seen, state.depth = some depth → state.arrivals.lookup index = some seen →
      depth = seen) : ∃ arrived, state.arrive index = .ok arrived := by
  unfold arrive
  split
  · exact ⟨_, rfl⟩
  · exact ⟨_, rfl⟩
  · rename_i seen depth hlookup hdepth
    exact ⟨_, if_neg (not_not_intro (h depth seen hdepth hlookup))⟩

variable {code : Code} {index : Nat} {instr : Instr} {state final : Balance}

theorem foldlM_walkFrom (hinstr : code.instr? index = some instr) (hpos : 0 < instr.len) :
    (code.walkFrom index).foldlM Balance.step state = .ok final ↔
      ∃ next, state.step (index, instr) = .ok next ∧
        (code.walkFrom (index + instr.len)).foldlM Balance.step next = .ok final := by
  rw [Code.walkFrom_of_instr? hinstr hpos, List.foldlM_cons]
  cases hstep : state.step (index, instr) with
  | error e => simp [bind, Except.bind]
  | ok next => simp [bind, Except.bind]

-- What the check has seen are depths with which paths come to places.
structure Tracks (code : Code) (index : Nat) (state : Balance) : Prop where
  depth : ∀ depth, state.depth = some depth → code.Reaches index depth
  arrivals : ∀ place depth, state.arrivals.lookup place = some depth → code.Reaches place depth
  deepest : ∃ place, code.Reaches place state.deepest

theorem tracks_start (code : Code) : Tracks code 0 start where
  depth := by
    rintro depth ⟨⟩
    exact .start
  arrivals := by
    intro place depth h
    cases h
  deepest := ⟨0, .start⟩

theorem Tracks.reaches {depth : Nat} (h : Tracks code index state)
    (hknows : state.Knows index depth) : code.Reaches index depth := by
  rcases hknows with hown | hlookup
  · exact h.depth depth hown
  · exact h.arrivals index depth hlookup

theorem Tracks.step {next : Balance} (h : Tracks code index state)
    (hinstr : code.instr? index = some instr) (hstep : state.step (index, instr) = .ok next) :
    Tracks code (index + instr.len) next := by
  rcases step_eq_ok hstep with ⟨-, rfl⟩ | ⟨depth, harrive, hpasses⟩
  · exact ⟨by rintro depth ⟨⟩, h.arrivals, h.deepest⟩
  · have hreaches := h.reaches ((arrive_eq_ok harrive depth).mp rfl)
    have hnext : ∀ d, next.depth = some d → code.Reaches (index + instr.len) d := by
      intro d hd
      rw [hpasses.depth_eq] at hd
      split at hd
      · rename_i hfalls
        cases hd
        exact hreaches.next hinstr hpasses.pops hfalls
      · cases hd
    refine ⟨hnext, ?_, ?_⟩
    · intro place d hlookup
      rcases (hpasses.lookup_iff place d).mp hlookup with hold | ⟨htarget, rfl⟩
      · exact h.arrivals place d hold
      · exact hreaches.jump hinstr hpasses.pops htarget
    · rw [hpasses.deepest_eq]
      rcases Nat.le_total state.deepest (next.depth.getD 0) with hle | hle
      · rw [Nat.max_eq_right hle]
        cases hdepth : next.depth with
        | none => exact ⟨0, .start⟩
        | some d => exact ⟨_, hnext d hdepth⟩
      · rw [Nat.max_eq_left hle]
        exact h.deepest

theorem Tracks.exists_deepest (h : Tracks code index state)
    (hfinal : (code.walkFrom index).foldlM Balance.step state = .ok final) :
    ∃ place, code.Reaches place final.deepest := by
  induction index using code.walkFrom_induction generalizing state with
  | hend index hwalk =>
      rw [hwalk] at hfinal
      cases hfinal
      exact h.deepest
  | hstep index head hhead hpos ih =>
      obtain ⟨next, hstep, hrest⟩ := (foldlM_walkFrom hhead hpos).mp hfinal
      exact ih (h.step hhead hstep) hrest

-- Where paths agree, the check finds nothing wrong with an instruction.
theorem Tracks.exists_step (h : Tracks code index state) (hbalanced : code.Balanced)
    (hinstr : code.instr? index = some instr) : ∃ next, state.step (index, instr) = .ok next := by
  obtain ⟨arrived, harrive⟩ := exists_arrive fun depth seen hdepth hlookup =>
    hbalanced.joins index depth seen (h.depth depth hdepth) (h.arrivals index seen hlookup)
  cases arrived with
  | none => exact ⟨_, by simp only [Balance.step, harrive, bind, Except.bind]; rfl⟩
  | some depth =>
      have hreaches := h.reaches ((arrive_eq_ok harrive depth).mp rfl)
      obtain ⟨instr', hinstr', hpops, hforward, hret⟩ := hbalanced.instr index depth hreaches
      obtain rfl := Option.some.inj (hinstr.symm.trans hinstr')
      have hbranch : instr.op.isBranch = true → ∃ target, instr.op.target? = some target ∧
          index < target ∧ ∀ seen, state.arrivals.lookup target = some seen →
            seen = depth - instr.op.pops + instr.op.carries.length := by
        intro hbranch
        obtain ⟨target, htarget, hlt⟩ := hforward hbranch
        refine ⟨target, htarget, hlt, fun seen hlookup => ?_⟩
        exact hbalanced.joins target seen _ (h.arrivals target seen hlookup)
          (hreaches.jump hinstr hpops htarget)
      obtain ⟨arrivals, after, hleave⟩ := exists_leave hpops hret hbranch
      refine ⟨⟨arrivals, after, max state.deepest (after.getD 0)⟩, ?_⟩
      simp only [Balance.step, harrive, hleave, bind, Except.bind, if_neg (Nat.not_lt.mpr hpops)]
      rfl

theorem Tracks.exists_final (h : Tracks code index state) (hclosed : code.Closed)
    (hbalanced : code.Balanced) :
    ∃ final, (code.walkFrom index).foldlM Balance.step state = .ok final ∧ final.depth = none := by
  induction index using code.walkFrom_induction generalizing state with
  | hend index hwalk =>
      refine ⟨state, by rw [hwalk]; rfl, ?_⟩
      refine Option.eq_none_iff_forall_ne_some.mpr fun depth hdepth => ?_
      -- A path that is still open would stand on an instruction of the walk.
      obtain ⟨instr, hmem⟩ := hclosed.mem_walk_of_reaches (h.depth depth hdepth)
      obtain ⟨hinstr, hpos⟩ := Code.instr?_of_mem_walk hmem
      rw [Code.walkFrom_of_instr? hinstr hpos] at hwalk
      cases hwalk
  | hstep index head hhead hpos ih =>
      obtain ⟨next, hstep⟩ := h.exists_step hbalanced hhead
      obtain ⟨final, hrest, hnone⟩ := ih (h.step hhead hstep)
      exact ⟨final, (foldlM_walkFrom hhead hpos).mpr ⟨next, hstep, hrest⟩, hnone⟩

-- The check comes to a place in a state, and goes on from it to its end.
structure Checks (code : Code) (index : Nat) (state final : Balance) : Prop where
  before : ∃ before, code.walk = before ++ code.walkFrom index ∧
    before.foldlM Balance.step start = .ok state
  after : (code.walkFrom index).foldlM Balance.step state = .ok final

theorem checks_start (h : code.walk.foldlM Balance.step start = .ok final) :
    Checks code 0 start final :=
  ⟨⟨[], rfl, rfl⟩, h⟩

theorem Checks.unique {other : Balance} (h : Checks code index state final)
    (hother : Checks code index other final) : state = other := by
  obtain ⟨before, hwalk, hbefore⟩ := h.before
  obtain ⟨before', hwalk', hbefore'⟩ := hother.before
  obtain rfl := List.append_cancel_right (hwalk.symm.trans hwalk')
  exact Except.ok.inj (hbefore.symm.trans hbefore')

theorem Checks.step (h : Checks code index state final) (hinstr : code.instr? index = some instr)
    (hpos : 0 < instr.len) :
    ∃ next, state.step (index, instr) = .ok next ∧
      Checks code (index + instr.len) next final := by
  obtain ⟨next, hstep, hrest⟩ := (foldlM_walkFrom hinstr hpos).mp h.after
  obtain ⟨before, hwalk, hbefore⟩ := h.before
  refine ⟨next, hstep, ⟨before ++ [(index, instr)], ?_, ?_⟩, hrest⟩
  · rw [hwalk, Code.walkFrom_of_instr? hinstr hpos, List.append_assoc, List.singleton_append]
  · rw [List.foldlM_append, hbefore]
    simp only [bind, Except.bind, List.foldlM_cons, hstep, List.foldlM_nil, pure, Except.pure]

theorem Checks.deepest_le (h : Checks code index state final) : state.deepest ≤ final.deepest := by
  induction index using code.walkFrom_induction generalizing state with
  | hend index hwalk =>
      have hafter := h.after
      rw [hwalk] at hafter
      cases hafter
      exact Nat.le_refl _
  | hstep index head hhead hpos ih =>
      obtain ⟨next, hstep, hrest⟩ := h.step hhead hpos
      refine Nat.le_trans ?_ (ih hrest)
      rcases step_eq_ok hstep with ⟨-, rfl⟩ | ⟨depth, -, hpasses⟩
      · exact Nat.le_refl _
      · rw [hpasses.deepest_eq]
        exact Nat.le_max_left _ _

-- An instruction is passed with the depth that is known for it.
theorem Checks.passes {depth : Nat} (h : Checks code index state final)
    (hinstr : code.instr? index = some instr) (hpos : 0 < instr.len)
    (hknows : state.Knows index depth) :
    (∀ other, state.Knows index other → other = depth) ∧
      ∃ next, state.Passes index instr.op depth next ∧
        Checks code (index + instr.len) next final := by
  obtain ⟨next, hstep, hrest⟩ := h.step hinstr hpos
  rcases step_eq_ok hstep with ⟨harrive, -⟩ | ⟨arrived, harrive, hpasses⟩
  · cases (arrive_eq_ok harrive depth).mpr hknows
  · obtain rfl := Option.some.inj ((arrive_eq_ok harrive depth).mpr hknows)
    refine ⟨fun other hother => ?_, next, hpasses, hrest⟩
    exact (Option.some.inj ((arrive_eq_ok harrive other).mpr hother)).symm

-- What a branch has brought to a place is still known when the check comes there.
theorem Checks.later {place depth : Nat} {landing : Instr} (h : Checks code index state final)
    (hmem : (place, landing) ∈ code.walkFrom index)
    (hlookup : state.arrivals.lookup place = some depth) :
    ∃ later, Checks code place later final ∧ later.Knows place depth := by
  induction index using code.walkFrom_induction generalizing state with
  | hend index hwalk =>
      rw [hwalk] at hmem
      cases hmem
  | hstep index head hhead hpos ih =>
      rw [Code.walkFrom_of_instr? hhead hpos] at hmem
      rcases List.mem_cons.mp hmem with heq | hmem
      · cases heq
        exact ⟨state, h, Or.inr hlookup⟩
      · obtain ⟨next, hstep, hrest⟩ := h.step hhead hpos
        refine ih hrest hmem ?_
        rcases step_eq_ok hstep with ⟨-, rfl⟩ | ⟨own, -, hpasses⟩
        · exact hlookup
        · exact (hpasses.lookup_iff place depth).mpr (Or.inl hlookup)

section Paths

variable (hclosed : code.Closed) (hrun : Checks code 0 start final)

include hclosed hrun

-- A path comes to an instruction with the depth that the check knows there. Branches lead
-- forward, so their target is still ahead when they are recorded.
theorem Checks.knows {depth : Nat} (hreaches : code.Reaches index depth) :
    ∃ state, Checks code index state final ∧ state.Knows index depth ∧ depth ≤ final.deepest := by
  induction hreaches with
  | start => exact ⟨start, hrun, Or.inl rfl, Nat.zero_le _⟩
  | @next index depth instr path hinstr hpops hfalls ih =>
      obtain ⟨state, hchecks, hknows, -⟩ := ih
      obtain ⟨hmem, hpos⟩ := hclosed.walks_of_reaches path hinstr
      obtain ⟨-, next, hpasses, hrest⟩ := hchecks.passes hinstr hpos hknows
      have hdepth := hpasses.depth_eq
      rw [if_pos hfalls] at hdepth
      have hdeepest : depth - instr.op.pops + instr.op.pushes ≤ next.deepest := by
        rw [hpasses.deepest_eq, hdepth]
        exact Nat.le_max_right _ _
      exact ⟨next, hrest, Or.inl hdepth, Nat.le_trans hdeepest hrest.deepest_le⟩
  | @jump index depth target instr path hinstr hpops htarget ih =>
      obtain ⟨state, hchecks, hknows, hle⟩ := ih
      obtain ⟨hmem, hpos⟩ := hclosed.walks_of_reaches path hinstr
      obtain ⟨-, next, hpasses, hrest⟩ := hchecks.passes hinstr hpos hknows
      obtain ⟨landing, hlanding⟩ :=
        hclosed.mem_walk_of_reaches (path.jump hinstr hpops htarget)
      have hlater := Code.mem_walkFrom_of_lt hmem hlanding (hpasses.forward target htarget)
      obtain ⟨later, hthere, hknown⟩ :=
        hrest.later hlater ((hpasses.lookup_iff target _).mpr (Or.inr ⟨htarget, rfl⟩))
      -- A branch that is taken leaves no more than it finds.
      have hcarries := instr.op.length_carries_le
      exact ⟨later, hthere, hknown, by omega⟩

theorem Checks.balanced : code.Balanced := by
  constructor
  · intro index depth hreaches
    obtain ⟨state, hchecks, hknows, -⟩ := hrun.knows hclosed hreaches
    obtain ⟨instr, hmem⟩ := hclosed.mem_walk_of_reaches hreaches
    obtain ⟨hinstr, hpos⟩ := Code.instr?_of_mem_walk hmem
    obtain ⟨-, next, hpasses, -⟩ := hchecks.passes hinstr hpos hknows
    refine ⟨instr, hinstr, hpasses.pops, fun hbranch => ?_, hpasses.returns⟩
    obtain ⟨target, -, htarget, -⟩ := hclosed.target index instr hmem hbranch
    exact ⟨target, htarget, hpasses.forward target htarget⟩
  · intro index depth other hreaches hother
    obtain ⟨state, hchecks, hknows, -⟩ := hrun.knows hclosed hreaches
    obtain ⟨state', hchecks', hknows', -⟩ := hrun.knows hclosed hother
    obtain rfl := hchecks.unique hchecks'
    obtain ⟨instr, hmem⟩ := hclosed.mem_walk_of_reaches hreaches
    obtain ⟨hinstr, hpos⟩ := Code.instr?_of_mem_walk hmem
    exact ((hchecks.passes hinstr hpos hknows).1 other hknows').symm

end Paths

end Balance

namespace Code

variable {code : Code} {depth : Nat}

theorem maxDepth_eq_ok_iff : code.maxDepth = .ok depth ↔
    ∃ final, code.walk.foldlM Balance.step .start = .ok final ∧ final.depth = none ∧
      final.deepest = depth := by
  rw [maxDepth]
  cases hfinal : code.walk.foldlM Balance.step .start with
  | error e => simp [bind, Except.bind]
  | ok final =>
      cases hdepth : final.depth with
      | none => simp [bind, Except.bind, hdepth]
      | some left => simp [bind, Except.bind, hdepth]

theorem Closed.exists_maxDepth_iff (h : code.Closed) :
    (∃ depth, code.maxDepth = .ok depth) ↔ code.Balanced := by
  constructor
  · rintro ⟨depth, hdepth⟩
    obtain ⟨final, hfinal, -⟩ := maxDepth_eq_ok_iff.mp hdepth
    exact (Balance.checks_start hfinal).balanced h
  · intro hbalanced
    obtain ⟨final, hfinal, hnone⟩ := (Balance.tracks_start code).exists_final h hbalanced
    exact ⟨final.deepest, maxDepth_eq_ok_iff.mpr ⟨final, hfinal, hnone, rfl⟩⟩

theorem Closed.greatest_maxDepth (h : code.Closed) (hdepth : code.maxDepth = .ok depth) :
    (∃ index, code.Reaches index depth) ∧
      ∀ index other, code.Reaches index other → other ≤ depth := by
  obtain ⟨final, hfinal, -, rfl⟩ := maxDepth_eq_ok_iff.mp hdepth
  refine ⟨(Balance.tracks_start code).exists_deepest hfinal, fun index other hreaches => ?_⟩
  obtain ⟨-, -, -, hle⟩ := (Balance.checks_start hfinal).knows h hreaches
  exact hle

theorem Shaped.maxDepth_eq_ok {shapes : Nat → Shape} (h : code.Shaped shapes)
    (hcomplete : code.Complete) : ∃ depth, code.maxDepth = .ok depth := by
  have hclosed := closed_of_validate hcomplete.validate_eq_ok
  exact hclosed.exists_maxDepth_iff.mpr (h.balanced hcomplete)

-- Of closed code only what is said of the depths remains.
theorem Closed.balanced_iff (h : code.Closed) : code.Balanced ↔
    (∀ index depth instr, code.Reaches index depth → code.instr? index = some instr →
      (∀ target, instr.op.target? = some target → index < target) ∧ instr.op.pops ≤ depth ∧
        (instr.op = .ret → depth = 1)) ∧
      ∀ index depth other, code.Reaches index depth → code.Reaches index other →
        depth = other := by
  constructor
  · intro hbalanced
    refine ⟨fun index depth instr hreaches hinstr => ?_, hbalanced.joins⟩
    obtain ⟨instr', hinstr', hpops, hforward, hret⟩ := hbalanced.instr index depth hreaches
    obtain rfl := Option.some.inj (hinstr.symm.trans hinstr')
    refine ⟨fun target htarget => ?_, hpops, hret⟩
    obtain ⟨target', htarget', hlt⟩ := hforward (Op.isBranch_of_target? htarget)
    obtain rfl := Option.some.inj (htarget.symm.trans htarget')
    exact hlt
  · rintro ⟨hinstrs, hjoins⟩
    refine ⟨fun index depth hreaches => ?_, hjoins⟩
    obtain ⟨instr, hmem⟩ := h.mem_walk_of_reaches hreaches
    have hinstr := (instr?_of_mem_walk hmem).1
    obtain ⟨hforward, hpops, hret⟩ := hinstrs index depth instr hreaches hinstr
    refine ⟨instr, hinstr, hpops, fun hbranch => ?_, hret⟩
    obtain ⟨target, -, htarget, -⟩ := h.target index instr hmem hbranch
    exact ⟨target, htarget, hforward target htarget⟩

-- The check of valid code succeeds exactly if branches lead forward, all paths into an instruction
-- come with one depth, none takes more than it finds and each returns with one value. Its answer
-- is the greatest depth on any path. A path ends where it would take more than it finds. The right
-- side forbids that, so it speaks of every place that control can come to.
theorem maxDepth_exact {code : Code} (hvalid : code.validate = .ok ()) :
    ((∃ depth, code.maxDepth = .ok depth) ↔
      (∀ index depth instr, code.Reaches index depth → code.instr? index = some instr →
        (∀ target, instr.op.target? = some target → index < target) ∧ instr.op.pops ≤ depth ∧
          (instr.op = .ret → depth = 1)) ∧
        ∀ index depth other, code.Reaches index depth → code.Reaches index other →
          depth = other) ∧
      ∀ depth, code.maxDepth = .ok depth →
        (∃ index, code.Reaches index depth) ∧
          ∀ index other, code.Reaches index other → other ≤ depth := by
  have hclosed := closed_of_validate hvalid
  exact ⟨hclosed.exists_maxDepth_iff.trans hclosed.balanced_iff,
    fun _ hdepth => hclosed.greatest_maxDepth hdepth⟩

-- A choice of a sum or a number. No path comes to the sum behind the jump.
def choice : Code :=
  ⟨#[.instr ⟨.pushNumber ⟨0⟩, 1, 0⟩, .instr ⟨.branchIfFalse ⟨some 7, true⟩, 1, 1⟩,
    .instr ⟨.pushNumber ⟨1⟩, 1, 2⟩, .instr ⟨.pushNumber ⟨2⟩, 1, 3⟩,
    .instr ⟨.operator .add, 1, 4⟩, .instr ⟨.goto (some 8), 1, 5⟩,
    .instr ⟨.operator .add, 1, 6⟩, .instr ⟨.pushNumber ⟨3⟩, 1, 7⟩, .instr ⟨.ret, 1, 8⟩]⟩

theorem maxDepth_exact_choice :
    choice.validate = .ok () ∧ choice.maxDepth = .ok 2 ∧
      (∀ index depth other, choice.Reaches index depth → choice.Reaches index other →
        depth = other) ∧
      (∃ index, choice.Reaches index 2) ∧
      ∀ index depth, choice.Reaches index depth → depth ≤ 2 := by
  have hvalid : choice.validate = .ok () := by decide +kernel
  have hdepth : choice.maxDepth = .ok 2 := by decide +kernel
  obtain ⟨hiff, hgreatest⟩ := maxDepth_exact hvalid
  exact ⟨hvalid, hdepth, (hiff.mp ⟨2, hdepth⟩).2, hgreatest 2 hdepth⟩

end Code

end FormulaCode
