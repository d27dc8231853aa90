import FormulaCode.Proofs.Code.Machine
import FormulaCode.Proofs.Code.Walk
import Mathlib.Control.Monad.Basic

namespace FormulaCode

-- Every branch of the walk leads ahead.
def Code.Forward (code : Code) : Prop :=
  ∀ item ∈ code.walk, ∀ target ∈ item.2.op.target?, item.1 < target

instance (code : Code) : Decidable code.Forward :=
  inferInstanceAs (Decidable (∀ item ∈ code.walk, ∀ target ∈ item.2.op.target?, item.1 < target))

namespace Machine

variable {σ ν : Type} {m : Machine σ ν} {code : Code}

-- A step goes on to the next instruction or to the target of a branch.
theorem place_of_branch {wanted : Bool} {branch : Branch} {fall : Nat} {c next : Config σ ν}
    (h : m.branch wanted branch fall c = some next) :
    next.place = fall ∨ branch.target = some next.place := by
  unfold Machine.branch at h
  split at h
  · cases h
  · split at h
    · obtain ⟨target, htarget, rfl⟩ := Option.map_eq_some_iff.mp h
      exact Or.inr htarget
    · cases h
      exact Or.inl rfl

theorem place_of_step? {c next : Config σ ν} (h : m.step? code c = some next) :
    ∃ instr, code.instr? c.place = some instr ∧
      ((instr.op.falls = true ∧ next.place = c.place + instr.len) ∨
        instr.op.target? = some next.place) := by
  cases hinstr : code.instr? c.place with
  | none =>
      rw [step?, hinstr] at h
      cases h
  | some instr =>
      refine ⟨instr, rfl, ?_⟩
      rw [step?_of_instr? hinstr] at h
      cases hop : instr.op with
      | ret => simp [execute, hop] at h
      | goto target =>
          simp only [execute, hop, Option.map_eq_some_iff] at h
          obtain ⟨place, rfl, rfl⟩ := h
          exact Or.inr rfl
      | branchIfFalse branch | branchIfTrue branch =>
          simp only [execute, hop] at h
          exact (place_of_branch h).imp (⟨rfl, ·⟩) id
      | _ =>
          simp only [execute, hop, Option.map_eq_some_iff] at h
          obtain ⟨answer, -, rfl⟩ := h
          exact Or.inl ⟨rfl, rfl⟩

-- Branches lead ahead, so every run on the walk comes to an end.
theorem exists_halts (hclosed : code.Closed) (hforward : code.Forward) (c : Config σ ν)
    (hplace : ∃ instr, (c.place, instr) ∈ code.walk) : ∃ last, m.Halts code c last := by
  induction hn : code.size - c.place using Nat.strongRecOn generalizing c with
  | _ n ih =>
      cases hstep : m.step? code c with
      | none => exact ⟨c, .stop hstep⟩
      | some next =>
          obtain ⟨instr, hmem⟩ := hplace
          obtain ⟨hinstr, hpos⟩ := Code.instr?_of_mem_walk hmem
          have hlt := Code.lt_size_of_instr? hinstr
          obtain ⟨instr', hinstr', hnext⟩ := place_of_step? hstep
          rw [hinstr, Option.some.injEq] at hinstr'
          subst hinstr'
          have hahead : c.place < next.place ∧ ∃ later, (next.place, later) ∈ code.walk := by
            rcases hnext with ⟨hfalls, hplace⟩ | htarget
            · rw [hplace]
              exact ⟨by omega, hclosed.next _ _ hmem hfalls⟩
            · obtain ⟨target, landing, htarget', hlanding⟩ :=
                hclosed.target _ _ hmem (Op.isBranch_of_target? htarget)
              rw [htarget, Option.some.injEq] at htarget'
              subst htarget'
              exact ⟨hforward _ hmem _ htarget, landing, hlanding⟩
          obtain ⟨last, hlast⟩ := ih (code.size - next.place) (by omega) next hahead.2 rfl
          exact ⟨last, .step hstep hlast⟩

-- Valid code whose branches lead ahead stops in one way only, from every state and stack, and
-- threaded code stops in the same way: at the same place, with the same state and stack, having
-- returned the same or being stuck.
theorem thread_halts_alike {σ ν : Type} (m : Machine σ ν) {code : Code}
    (hvalid : code.validate = .ok ()) (hforward : code.Forward) (state : σ) (stack : List ν) :
    ∃ last, (∀ c, m.Halts code ⟨0, state, stack⟩ c ↔ c = last) ∧
      (∀ c, m.Halts code.thread.1 ⟨0, state, stack⟩ c ↔ c = last) ∧
      answer? code.thread.1 last = answer? code last := by
  have hclosed := Code.closed_of_validate hvalid
  obtain ⟨last, hlast⟩ := exists_halts (m := m) hclosed hforward ⟨0, state, stack⟩ hclosed.first
  have honly : ∀ c, m.Halts code ⟨0, state, stack⟩ c ↔ c = last := by
    intro c
    exact ⟨fun h => h.unique hlast, fun h => h ▸ hlast⟩
  refine ⟨last, honly, fun c => ?_, answer?_thread code last⟩
  rw [halts_thread, honly]

-- Three numbers joined by `&&`, none of which is made a boolean. The first branch lands on the
-- second.
def conjunction : Code :=
  ⟨#[.instr ⟨.pushNumber ⟨0⟩, 1, 0⟩, .instr ⟨.branchIfFalse ⟨some 3, false⟩, 1, 1⟩,
    .instr ⟨.pushNumber ⟨1⟩, 1, 2⟩, .instr ⟨.branchIfFalse ⟨some 5, false⟩, 1, 3⟩,
    .instr ⟨.pushNumber ⟨1⟩, 1, 4⟩, .instr ⟨.ret, 1, 5⟩]⟩

-- Counts the numbers it pushes. Zero is false.
def counting : Machine Nat Nat where
  truth n := n != 0
  ofBool := Bool.toNat
  truth_ofBool := by decide
  act
    | .pushNumber value, _, count, stack => some (count + 1, value.bits.toNat :: stack)
    | _, _, _, _ => none

theorem thread_halts_alike_conjunction :
    conjunction.validate = .ok () ∧ conjunction.Forward ∧ conjunction.thread.1 ≠ conjunction ∧
      ∃ last, (∀ c, counting.Halts conjunction ⟨0, 0, []⟩ c ↔ c = last) ∧
        (∀ c, counting.Halts conjunction.thread.1 ⟨0, 0, []⟩ c ↔ c = last) ∧
        answer? conjunction.thread.1 last = answer? conjunction last := by
  have hvalid : conjunction.validate = .ok () := by decide +kernel
  have hforward : conjunction.Forward := by decide +kernel
  exact ⟨hvalid, hforward, by decide +kernel, thread_halts_alike counting hvalid hforward 0 []⟩

end Machine

end FormulaCode
