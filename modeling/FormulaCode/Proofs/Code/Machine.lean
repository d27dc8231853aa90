import FormulaCode.Proofs.Code.Threading

namespace FormulaCode

-- The conditions among values. The truth of a boolean is itself.
structure Conditions (ν : Type) where
  truth : ν → Bool
  ofBool : Bool → ν
  truth_ofBool : ∀ b, truth (ofBool b) = b

-- A stack machine. What is no jump and no return acts on the state and on the stack, the top of
-- the stack first, or is stuck.
structure Machine (σ ν : Type) extends Conditions ν where
  act : Op → Option (List Char) → σ → List ν → Option (σ × List ν)

structure Config (σ ν : Type) where
  place : Nat
  state : σ
  stack : List ν

namespace Machine

variable {σ ν : Type} (m : Machine σ ν)

-- A conditional jump leaves its condition as a boolean. Going on always takes it away, and
-- jumping does so with `popOnBranch`.
def branch (wanted : Bool) (branch : Branch) (next : Nat) (c : Config σ ν) : Option (Config σ ν) :=
  match c.stack with
  | [] => none
  | value :: rest =>
      if m.truth value = wanted then
        branch.target.map fun target =>
          ⟨target, c.state, if branch.popOnBranch then rest else m.ofBool (m.truth value) :: rest⟩
      else some ⟨next, c.state, rest⟩

def execute (instr : Instr) (text : Option (List Char)) (c : Config σ ν) : Option (Config σ ν) :=
  let next := c.place + instr.len
  match instr.op with
  | .ret => none
  | .goto target => target.map fun target => { c with place := target }
  | .branchIfFalse branch => m.branch false branch next c
  | .branchIfTrue branch => m.branch true branch next c
  | op => (m.act op text c.state c.stack).map fun (state, stack) => ⟨next, state, stack⟩

-- One step, unless the machine has returned or is stuck.
def step? (code : Code) (c : Config σ ν) : Option (Config σ ν) := do
  m.execute (← code.instr? c.place) (code.textAt? c.place) c

-- What a machine that has stopped has returned.
def answer? (code : Code) (c : Config σ ν) : Option (σ × List ν) :=
  if (code.instr? c.place).map Instr.op = some .ret then some (c.state, c.stack) else none

-- A run to its end. It has no answer if the machine gets stuck.
inductive Ends (code : Code) : Config σ ν → Option (σ × List ν) → Prop
  | stop {c : Config σ ν} : m.step? code c = none → Ends code c (answer? code c)
  | step {c next : Config σ ν} {answer : Option (σ × List ν)} :
      m.step? code c = some next → Ends code next answer → Ends code c answer

-- A run up to the place, the state and the stack with which it stops.
inductive Halts (code : Code) : Config σ ν → Config σ ν → Prop
  | stop {c : Config σ ν} : m.step? code c = none → Halts code c c
  | step {c next last : Config σ ν} :
      m.step? code c = some next → Halts code next last → Halts code c last

variable {m}

theorem ends_iff_halts {code : Code} {c : Config σ ν} {answer : Option (σ × List ν)} :
    m.Ends code c answer ↔ ∃ last, m.Halts code c last ∧ answer? code last = answer := by
  constructor
  · intro h
    induction h with
    | stop hstop => exact ⟨_, .stop hstop, rfl⟩
    | step hstep _ ih =>
        obtain ⟨last, hhalts, hanswer⟩ := ih
        exact ⟨last, .step hstep hhalts, hanswer⟩
  · rintro ⟨last, hhalts, rfl⟩
    induction hhalts with
    | stop hstop => exact .stop hstop
    | step hstep _ ih => exact .step hstep ih

theorem Halts.unique {code : Code} {c last other : Config σ ν} (h : m.Halts code c last)
    (hother : m.Halts code c other) : last = other := by
  induction h with
  | stop hstop =>
      cases hother with
      | stop _ => rfl
      | step hstep _ =>
          rw [hstop] at hstep
          cases hstep
  | step hstep _ ih =>
      cases hother with
      | stop hstop =>
          rw [hstep] at hstop
          cases hstop
      | step hstep' hrest =>
          rw [hstep, Option.some.injEq] at hstep'
          subst hstep'
          exact ih hrest

theorem step?_of_instr? {code : Code} {c : Config σ ν} {instr : Instr}
    (h : code.instr? c.place = some instr) :
    m.step? code c = m.execute instr (code.textAt? c.place) c := by
  rw [step?, h]
  rfl

-- What leaves a value acts.
theorem execute_act {instr : Instr} (hop : instr.op.pushes = 1)
    (text : Option (List Char)) (c : Config σ ν) :
    m.execute instr text c = (m.act instr.op text c.state c.stack).map fun (state, stack) =>
      ⟨c.place + instr.len, state, stack⟩ := by
  unfold execute
  split
  case h_5 => rfl
  all_goals
    rename_i hinstr
    rw [hinstr] at hop
    cases hop

theorem step?_ret {code : Code} {c : Config σ ν} {instr : Instr}
    (h : code.instr? c.place = some instr) (hop : instr.op = .ret) : m.step? code c = none := by
  rw [step?_of_instr? h, execute, hop]

theorem Ends.ret {code : Code} {c : Config σ ν} {instr : Instr}
    (h : code.instr? c.place = some instr) (hop : instr.op = .ret) :
    m.Ends code c (some (c.state, c.stack)) := by
  have hanswer : answer? code c = some (c.state, c.stack) := by
    rw [answer?, h, Option.map_some, hop, if_pos rfl]
  exact hanswer ▸ .stop (step?_ret h hop)

section Threading

variable {jump landing : Instr} {target next : Nat} {op : Op}

-- A jump that is led past the one it lands on either does what it did before, or arrives where
-- the other jump arrives.
theorem branch_shortcut {wanted : Bool} {taken : Branch} (htarget : taken.target = some target)
    (hlands : ∀ (rest : List ν) (state : σ) (value : ν), m.truth value = wanted →
      ∀ text, m.execute landing text
          ⟨target, state, if taken.popOnBranch then rest else m.ofBool (m.truth value) :: rest⟩ =
        some ⟨next, state, if taken.popOnBranch then rest else m.ofBool (m.truth value) :: rest⟩)
    (fall : Nat) (c : Config σ ν) :
    m.branch wanted { taken with target := some next } fall c = m.branch wanted taken fall c ∨
      ∃ state stack, m.branch wanted taken fall c = some ⟨target, state, stack⟩ ∧
        m.branch wanted { taken with target := some next } fall c = some ⟨next, state, stack⟩ ∧
        ∀ text, m.execute landing text ⟨target, state, stack⟩ = some ⟨next, state, stack⟩ := by
  cases hstack : c.stack with
  | nil => exact Or.inl (by simp [branch, hstack])
  | cons value rest =>
      by_cases htruth : m.truth value = wanted
      · right
        refine ⟨c.state, if taken.popOnBranch then rest else m.ofBool (m.truth value) :: rest,
          ?_, ?_, hlands rest c.state value htruth⟩
        · simp [branch, hstack, htruth, htarget]
        · simp [branch, hstack, htruth]
      · exact Or.inl (by simp [branch, hstack, htruth])

theorem execute_goto (hlanding : landing.op = .goto (some next)) (text : Option (List Char))
    (state : σ) (stack : List ν) :
    m.execute landing text ⟨target, state, stack⟩ = some ⟨next, state, stack⟩ := by
  simp [execute, hlanding]

theorem branch_again {wanted : Bool} {again : Branch} (htarget : again.target = some next)
    (hkeep : again.popOnBranch = false) {value : ν} (htruth : m.truth value = wanted)
    (fall : Nat) (state : σ) (rest : List ν) :
    m.branch wanted again fall ⟨target, state, m.ofBool (m.truth value) :: rest⟩ =
      some ⟨next, state, m.ofBool (m.truth value) :: rest⟩ := by
  simp [branch, m.truth_ofBool, htruth, htarget, hkeep]

theorem execute_shortcut (htarget : jump.op.target? = some target)
    (hthrough : jump.op.threadThrough? landing.op = some next)
    (hop : jump.op.withTarget? next = some op) (text : Option (List Char)) (c : Config σ ν) :
    m.execute { jump with op } text c = m.execute jump text c ∨
      ∃ state stack, m.execute jump text c = some ⟨target, state, stack⟩ ∧
        m.execute { jump with op } text c = some ⟨next, state, stack⟩ ∧
        ∀ text, m.execute landing text ⟨target, state, stack⟩ = some ⟨next, state, stack⟩ := by
  obtain ⟨jumpOp, len, pos⟩ := jump
  unfold Op.threadThrough? at hthrough
  split at hthrough
  · -- The jump lands on an unconditional one.
    rename_i hlanding
    subst hthrough
    cases jumpOp with
    | goto first =>
        cases hop
        cases htarget
        exact Or.inr ⟨c.state, c.stack, rfl, rfl, fun text => execute_goto hlanding text _ _⟩
    | branchIfFalse taken | branchIfTrue taken =>
        cases hop
        exact branch_shortcut htarget
          (fun rest state value _ text => execute_goto hlanding text _ _) _ c
    | _ => cases hop
  · rename_i taken again hjump hlanding
    split at hthrough
    · rename_i hkeep
      simp only [Bool.and_eq_true, Bool.not_eq_true'] at hkeep
      cases hjump
      cases hop
      refine branch_shortcut htarget (fun rest state value htruth text => ?_) _ c
      simp only [hkeep.1, Bool.false_eq_true, if_false, execute, hlanding]
      exact branch_again hthrough hkeep.2 htruth _ state rest
    · cases hthrough
  · rename_i taken again hjump hlanding
    split at hthrough
    · rename_i hkeep
      simp only [Bool.and_eq_true, Bool.not_eq_true'] at hkeep
      cases hjump
      cases hop
      refine branch_shortcut htarget (fun rest state value htruth text => ?_) _ c
      simp only [hkeep.1, Bool.false_eq_true, if_false, execute, hlanding]
      exact branch_again hthrough hkeep.2 htruth _ state rest
    · cases hthrough
  · cases hthrough

end Threading

section Redirect

variable {code : Code} {index next : Nat} (hnext : code.shortcut? index = some next)

include hnext

-- A shortcut changes no step, or makes one step of two.
theorem step?_redirect (c : Config σ ν) :
    m.step? (code.redirect index next) c = m.step? code c ∨
      ∃ mid last, m.step? code c = some mid ∧ m.step? code mid = some last ∧
        m.step? (code.redirect index next) c = some last ∧
        m.step? (code.redirect index next) mid = some last := by
  obtain ⟨jump, target, landing, op, hjump, htarget, hlanding, hthrough, hne, -, hop, heq⟩ :=
    Code.shortcut?_eq_some hnext
  rw [heq]
  have htext : ∀ other, (code.setOp index op).textAt? other = code.textAt? other :=
    fun other => Code.textAt?_setOp op other hjump
  have hsame : ∀ c : Config σ ν, c.place ≠ index →
      m.step? (code.setOp index op) c = m.step? code c := by
    intro c hplace
    rw [step?, step?, Code.instr?_setOp_of_ne code op hplace, htext]
  by_cases hplace : c.place = index
  · have hold : m.step? code c = m.execute jump (code.textAt? c.place) c :=
      step?_of_instr? (hplace ▸ hjump)
    have hset : (code.setOp index op).instr? c.place = some { jump with op } := by
      rw [hplace]
      exact Code.instr?_setOp_self op hjump
    have hnew : m.step? (code.setOp index op) c =
        m.execute { jump with op } (code.textAt? c.place) c := by
      rw [step?_of_instr? hset, htext]
    rw [hold, hnew]
    rcases execute_shortcut htarget hthrough hop (code.textAt? c.place) c with
      hkept | ⟨state, stack, hfirst, hshort, hsecond⟩
    · exact Or.inl hkept
    · -- A jump to itself has no shortcut, so the jump that is passed is another one.
      have hother : target ≠ index := by
        rintro rfl
        rw [hjump, Option.some.injEq] at hlanding
        rw [← hlanding] at hthrough
        have := (Op.threadThrough?_eq_some hthrough).1
        rw [htarget, Option.some.injEq] at this
        exact hne this.symm
      have hmid : m.step? code ⟨target, state, stack⟩ = some ⟨next, state, stack⟩ :=
        (step?_of_instr? hlanding).trans (hsecond _)
      exact Or.inr ⟨_, _, hfirst, hmid, hshort, (hsame _ hother).trans hmid⟩
  · exact Or.inl (hsame c hplace)

theorem answer?_redirect (c : Config σ ν) :
    answer? (code.redirect index next) c = answer? code c := by
  obtain ⟨jump, target, landing, op, hjump, -, -, -, -, -, hop, heq⟩ := Code.shortcut?_eq_some hnext
  obtain ⟨-, hopBranch, hjumpBranch, -⟩ := Op.withTarget?_eq_some hop
  rw [heq]
  by_cases hplace : c.place = index
  · have hnoRet : ∀ op : Op, op.isBranch = true → ¬some op = some .ret := by
      rintro op hbranch ⟨⟩
      cases hbranch
    rw [answer?, answer?, hplace, Code.instr?_setOp_self op hjump, hjump, Option.map_some,
      Option.map_some, if_neg (hnoRet op hopBranch), if_neg (hnoRet jump.op hjumpBranch)]
  · rw [answer?, answer?, Code.instr?_setOp_of_ne code op hplace]

-- A run stops where it stopped before, with the same state and stack.
theorem halts_redirect {c last : Config σ ν} :
    m.Halts (code.redirect index next) c last ↔ m.Halts code c last := by
  constructor
  · intro h
    induction h with
    | @stop c hstop =>
        rcases step?_redirect hnext c with hsame | ⟨_, _, -, -, hshort, -⟩
        · exact .stop (hsame ▸ hstop)
        · rw [hstop] at hshort
          cases hshort
    | @step c later last hstep _ ih =>
        rcases step?_redirect hnext c with hsame | ⟨mid, far, hfirst, hsecond, hshort, -⟩
        · exact .step (hsame ▸ hstep) ih
        · rw [hstep, Option.some.injEq] at hshort
          subst hshort
          exact .step hfirst (.step hsecond ih)
  · intro h
    induction h with
    | @stop c hstop =>
        rcases step?_redirect hnext c with hsame | ⟨_, _, hfirst, -⟩
        · exact .stop (hsame.trans hstop)
        · rw [hstop] at hfirst
          cases hfirst
    | @step c later last hstep _ ih =>
        rcases step?_redirect hnext c with hsame | ⟨mid, far, hfirst, -, hshort, hmid⟩
        · exact .step (hsame.trans hstep) ih
        · rw [hstep, Option.some.injEq] at hfirst
          subst hfirst
          -- The run goes on from the middle, by the only step there is.
          cases ih with
          | stop hstop =>
              rw [hmid] at hstop
              cases hstop
          | step hstep' hhalts =>
              rw [hmid, Option.some.injEq] at hstep'
              subst hstep'
              exact .step hshort hhalts

end Redirect

theorem halts_thread (code : Code) (c last : Config σ ν) :
    m.Halts code.thread.1 c last ↔ m.Halts code c last := by
  refine Code.thread_induction (motive := fun threaded =>
    m.Halts threaded c last ↔ m.Halts code c last) ?_ code Iff.rfl
  intro threaded index next hhalts hnext
  exact (halts_redirect hnext).trans hhalts

theorem answer?_thread (code : Code) (c : Config σ ν) :
    answer? code.thread.1 c = answer? code c := by
  refine Code.thread_induction (motive := fun threaded => answer? threaded c = answer? code c)
    ?_ code rfl
  intro threaded index next hanswer hnext
  exact (answer?_redirect hnext c).trans hanswer

-- Threading changes neither what a run returns nor whether it gets stuck.
theorem ends_thread (code : Code) (c : Config σ ν) (answer : Option (σ × List ν)) :
    m.Ends code.thread.1 c answer ↔ m.Ends code c answer := by
  simp only [ends_iff_halts, halts_thread, answer?_thread]

end Machine

end FormulaCode
