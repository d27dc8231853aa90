import FormulaCode.Code.Threading
import FormulaCode.Proofs.Code.Shape

namespace FormulaCode

namespace Op

-- A jump that may be passed over leaves the stack as it finds it.
theorem threadThrough?_eq_some {jump landing : Op} {next : Nat}
    (h : jump.threadThrough? landing = some next) :
    landing.target? = some next ∧ landing.carries = landing.takes := by
  unfold threadThrough? at h
  split at h
  · exact ⟨h, rfl⟩
  · split at h
    · next hkeep => exact ⟨h, by simp_all [carries, takes, pops]⟩
    · cases h
  · split at h
    · next hkeep => exact ⟨h, by simp_all [carries, takes, pops]⟩
    · cases h
  · cases h

end Op

namespace Code

-- A shortcut leads a jump past the one it lands on.
theorem shortcut?_eq_some {code : Code} {index next : Nat} (h : code.shortcut? index = some next) :
    ∃ jump target landing op, code.instr? index = some jump ∧ jump.op.target? = some target ∧
      code.instr? target = some landing ∧ jump.op.threadThrough? landing.op = some next ∧
      next ≠ target ∧ next ≠ index ∧ jump.op.withTarget? next = some op ∧
      code.redirect index next = code.setOp index op := by
  simp only [shortcut?, Option.bind_eq_bind, Option.bind_eq_some_iff] at h
  obtain ⟨jump, hjump, target, htarget, landing, hlanding, through, hthrough, h⟩ := h
  split at h
  · cases h
  · next hne =>
      cases h
      simp only [Bool.or_eq_true, decide_eq_true_eq, not_or] at hne
      obtain ⟨op, hop⟩ := Op.exists_withTarget? (Op.isBranch_of_target? htarget) next
      exact ⟨jump, target, landing, op, hjump, htarget, hlanding, hthrough, hne.1, hne.2, hop,
        by simp [redirect, hjump, hop]⟩

-- What holds of code and is kept by every shortcut holds when the code is threaded.
section Induction

variable {motive : Code → Prop}
  (hstep : ∀ code index next, motive code → code.shortcut? index = some next →
    motive (code.redirect index next))

include hstep

theorem threadOnce_induction (code : Code) (h : motive code) : motive code.threadOnce.1 := by
  unfold threadOnce
  generalize code.walk = places
  generalize 0 = count
  induction places generalizing code count with
  | nil => exact h
  | cons place places ih =>
      rw [List.foldl_cons]
      cases hnext : code.shortcut? place.1 with
      | none =>
          simp only [takeShortcut, hnext]
          exact ih code h count
      | some next =>
          simp only [takeShortcut, hnext]
          exact ih _ (hstep code place.1 next h hnext) _

theorem threadWithin_induction (passes : Nat) (code : Code) (h : motive code) :
    motive (code.threadWithin passes).1 := by
  induction passes generalizing code with
  | zero => exact h
  | succ passes ih =>
      have honce := threadOnce_induction hstep code h
      simp only [threadWithin]
      split
      · exact honce
      · exact ih _ honce

theorem thread_induction (code : Code) (h : motive code) : motive code.thread.1 :=
  threadWithin_induction hstep _ code h

end Induction

theorem size_thread (code : Code) : code.thread.1.size = code.size := by
  refine thread_induction (motive := fun threaded => threaded.size = code.size) ?_ code rfl
  intro threaded index next hsize hnext
  obtain ⟨-, -, -, op, -, -, -, -, -, -, -, heq⟩ := shortcut?_eq_some hnext
  rw [heq, size_setOp, hsize]

theorem Complete.redirect {code : Code} (h : code.Complete) {index next : Nat}
    (hnext : code.shortcut? index = some next) : (code.redirect index next).Complete := by
  obtain ⟨jump, target, landing, op, hjump, htarget, hlanding, hthrough, -, -, hop, heq⟩ :=
    shortcut?_eq_some hnext
  obtain ⟨hopTarget, hopBranch, hjumpBranch, -, -, -, -, htext⟩ := Op.withTarget?_eq_some hop
  have hlandingTarget := (Op.threadThrough?_eq_some hthrough).1
  obtain ⟨next', hnext', hlt⟩ := h.target target landing hlanding
    (Op.isBranch_of_target? hlandingTarget)
  rw [hlandingTarget, Option.some.injEq] at hnext'
  subst hnext'
  rw [heq]
  constructor
  · refine h.laid.setOp hjump htext ?_
    intro target' htarget'
    rw [hopTarget, Option.some.injEq] at htarget'
    subst htarget'
    exact (h.laid.placed target landing hlanding).target next hlandingTarget
  · intro other instr hinstr hbranch
    obtain ⟨old, hold, -, -, hne, hself⟩ := instr?_setOp hinstr
    rw [size_setOp]
    by_cases he : other = index
    · rw [hself he]
      exact ⟨next, hopTarget, hlt⟩
    · rw [hne he] at hbranch ⊢
      exact h.target other old hold hbranch
  · obtain ⟨last, ret, hlast, hend, hret⟩ := h.returns
    have hne : last ≠ index := by
      rintro rfl
      rw [hjump, Option.some.injEq] at hlast
      rw [hlast, hret] at hjumpBranch
      cases hjumpBranch
    exact ⟨last, ret, by rw [instr?_setOp_of_ne code op hne, hlast], by rw [size_setOp, hend], hret⟩

-- A threaded branch comes to its new target with the shape that the passed jump brought there.
theorem Shaped.redirect {code : Code} {shapes : Nat → Shape} (h : code.Shaped shapes)
    {index next : Nat} (hnext : code.shortcut? index = some next) :
    (code.redirect index next).Shaped shapes := by
  obtain ⟨jump, target, landing, op, hjump, htarget, hlanding, hthrough, -, -, hop, heq⟩ :=
    shortcut?_eq_some hnext
  obtain ⟨hlandingTarget, hkeeps⟩ := Op.threadThrough?_eq_some hthrough
  obtain ⟨rest, hbefore, -, hjumps, -⟩ := h.agrees index jump hjump
  obtain ⟨below, hlandingBefore, -, hlandingJumps, -⟩ := h.agrees target landing hlanding
  have hfirst := hjumps target htarget
  have hsecond := hlandingJumps next hlandingTarget
  rw [heq]
  refine h.withTarget hjump hop hbefore (by omega) ?_
  rw [hsecond.2, hkeeps, ← hlandingBefore, hfirst.2]

theorem Complete.thread {code : Code} (h : code.Complete) : code.thread.1.Complete :=
  thread_induction (fun _ _ _ hcomplete hnext => hcomplete.redirect hnext) code h

theorem Shaped.thread {code : Code} {shapes : Nat → Shape} (h : code.Shaped shapes) :
    code.thread.1.Shaped shapes :=
  thread_induction (motive := fun code => code.Shaped shapes)
    (fun _ _ _ hshaped hnext => hshaped.redirect hnext) code h

end Code

end FormulaCode
