import FormulaCode.Code.Basic

namespace FormulaCode

-- Where a branch may go instead of the jump it lands on. An unconditional jump leaves the stack
-- alone. A test of a condition that was tested the same way, and is still on the stack, has the
-- same outcome.
def Op.threadThrough? : Op → Op → Option Nat
  | _, .goto target => target
  | .branchIfFalse jump, .branchIfFalse landing =>
      if !jump.popOnBranch && !landing.popOnBranch then landing.target else none
  | .branchIfTrue jump, .branchIfTrue landing =>
      if !jump.popOnBranch && !landing.popOnBranch then landing.target else none
  | _, _ => none

namespace Code

-- The next target of the branch at a place, if it lands on a jump. A branch is never led back to
-- itself.
def shortcut? (code : Code) (index : Nat) : Option Nat := do
  let jump ← code.instr? index
  let target ← jump.op.target?
  let landing ← code.instr? target
  let next ← jump.op.threadThrough? landing.op
  if next = target || next = index then none else some next

def redirect (code : Code) (index target : Nat) : Code :=
  match (code.instr? index).bind (·.op.withTarget? target) with
  | some op => code.setOp index op
  | none => code

-- Takes the shortcut at a place of a walk, if there is one, and counts it.
def takeShortcut (state : Code × Nat) (item : Nat × Instr) : Code × Nat :=
  match state.1.shortcut? item.1 with
  | some target => (state.1.redirect item.1 target, state.2 + 1)
  | none => state

-- Takes the shortcut of every branch once, in the order of the code, and counts them.
def threadOnce (code : Code) : Code × Nat :=
  code.walk.foldl takeShortcut (code, 0)

def threadWithin : Nat → Code → Code × Nat
  | 0, code => (code, 0)
  | passes + 1, code =>
      let (once, count) := code.threadOnce
      if count = 0 then (once, 0)
      else
        let (done, more) := threadWithin passes once
        (done, count + more)

-- Leads every branch past the jumps it lands on, and counts the targets that change. Each pass
-- but the last moves a target, and forward targets only move forward, so there are fewer passes
-- than pairs of places.
def thread (code : Code) : Code × Nat :=
  threadWithin (code.size * code.size + 1) code

-- The same where a place has 32 bits. Every pass walks through the code again.
def threadOnce? (code : Code) : Option (Code × Nat) :=
  code.walk?.map (List.foldl takeShortcut (code, 0))

def threadWithin? : Nat → Code → Option (Code × Nat)
  | 0, code => some (code, 0)
  | passes + 1, code => do
      let (once, count) ← code.threadOnce?
      if count = 0 then return (once, 0)
      let (done, more) ← threadWithin? passes once
      return (done, count + more)

def thread? (code : Code) : Option (Code × Nat) :=
  threadWithin? (code.size * code.size + 1) code

end Code

end FormulaCode
