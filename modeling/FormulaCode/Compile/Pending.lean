import FormulaCode.Compile.Assembly
import FormulaCode.Token.Basic

namespace FormulaCode

-- An operator that waits for its last operand. `logical` is `&&` or `||`, whose branch jumps
-- over that operand, and `colon` is the else part of a ternary operator, whose `goto` jumps over
-- it.
inductive Pending where
  | operator (op : Operator) (pos : Nat)
  | logical (op : Operator) (pos branch : Nat)
  | assign (op : Assignment) (pos : Nat)
  | colon (pos goto : Nat)
  | dollar (pos : Nat)
deriving DecidableEq, Repr

-- What no operator reaches across: a `?` that waits for its `:`, or an open bracket.
inductive Barrier where
  | question (pos branch : Nat)
  | bracket (group : Group) (pos : Nat)
deriving DecidableEq, Repr

inductive Entry where
  | pending (pending : Pending)
  | barrier (barrier : Barrier)
deriving DecidableEq, Repr

namespace Pending

-- An increment in front of an access binds to the access right behind it.
def precedence : Pending → Nat
  | operator .preIncrement _ | operator .preDecrement _ => 1
  | operator op _ => op.precedence
  | logical op _ _ => op.precedence
  | assign _ _ => Assignment.precedence
  | colon _ _ => Operator.colon.precedence
  | dollar _ => 0

def pos : Pending → Nat
  | operator _ pos => pos
  | logical _ pos _ => pos
  | assign _ pos => pos
  | colon pos _ => pos
  | dollar pos => pos

-- Whether an operator is complete when another one follows.
def yields (incoming : Operator) (p : Pending) : Bool :=
  if incoming.rightAssoc then p.precedence < incoming.precedence
  else p.precedence ≤ incoming.precedence

-- A unary operator behind `**` belongs to the right operand, as in `x**-1`.
def yieldsToUnary (incoming : Operator) : Pending → Bool
  | operator .power _ => Operator.power.precedence + 1 < incoming.precedence
  | p => p.yields incoming

-- An assignment in the else part of a ternary operator stays there.
def yieldsToAssignment : Pending → Bool
  | colon _ _ => false
  | p => p.precedence < Assignment.precedence

-- A member, an element or a call of a column belongs to the column's value.
def yieldsToAccess (p : Pending) : Bool :=
  p.precedence = 0

-- Writes the code of an operator behind that of its operands.
def apply (limit : Nat) (a : Assembly) : Pending → Except CompileError Assembly
  | operator .substitute pos => a.emit limit (.substitute 1) pos
  | operator .preIncrement pos => do (← a.pointerize pos).emit limit (.incDec .preIncrement) pos
  | operator .preDecrement pos => do (← a.pointerize pos).emit limit (.incDec .preDecrement) pos
  | operator op pos => a.emit limit (.operator op) pos
  | logical _ pos branch => do (← a.emit limit .makeBool pos).patch branch
  | assign op pos => a.emit limit (.assign op) pos
  | colon _ goto => do return { ← a.patch goto with last := none }
  | dollar pos => a.emit limit .dollar pos

end Pending

def Barrier.pos : Barrier → Nat
  | question pos _ => pos
  | bracket _ pos => pos

def Entry.pos : Entry → Nat
  | pending p => p.pos
  | barrier b => b.pos

-- Applies the operators on top of the stack as long as they yield.
def reduceWhile (limit : Nat) (yields : Pending → Bool) :
    List Entry → Assembly → Except CompileError (List Entry × Assembly)
  | .pending p :: rest, a =>
      if yields p then do reduceWhile limit yields rest (← p.apply limit a)
      else .ok (.pending p :: rest, a)
  | stack, a => .ok (stack, a)

end FormulaCode
