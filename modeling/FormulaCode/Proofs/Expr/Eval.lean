import FormulaCode.Proofs.Code.Machine
import FormulaCode.Proofs.Expr.Code

namespace FormulaCode

-- What the instructions do that are neither jumps nor returns: from their operands, the first
-- one pushed first, they make one value.
structure Interpretation (σ ν : Type) extends Conditions ν where
  act : Op → Option (List Char) → List ν → StateM σ ν
  act_makeBool : ∀ text value, act .makeBool text [value] = pure (ofBool (truth value))

namespace Interpretation

variable {σ ν : Type}

-- Operands come from the top of the stack, and the value takes their place.
def machine (I : Interpretation σ ν) : Machine σ ν where
  toConditions := I.toConditions
  act op text state stack :=
    if stack.length < op.pops then none
    else
      let (value, later) := I.act op text (stack.take op.pops).reverse state
      some (later, value :: stack.drop op.pops)

-- What is no jump takes and leaves as many values as it is said to.
theorem length_execute {I : Interpretation σ ν} {instr : Instr} {text : Option (List Char)}
    {c next : Config σ ν} (hbranch : instr.op.isBranch = false)
    (h : I.machine.execute instr text c = some next) :
    next.stack.length + instr.op.pops = c.stack.length + instr.op.pushes := by
  have hpushes : instr.op.pushes = 1 := by
    unfold Machine.execute at h
    cases hop : instr.op <;> simp_all [Op.pushes, Op.isBranch]
  rw [Machine.execute_act hpushes] at h
  simp only [machine] at h
  split at h
  · cases h
  · cases h
    simp only [List.length_cons, List.length_drop, hpushes]
    omega

end Interpretation

namespace Expr

section Eval

variable {σ ν : Type} (I : Interpretation σ ν)

mutual

-- The value of a tree, its parts taken from left to right. The right side of `&&` and `||` is
-- left out if the left side decides, and only one side of a ternary operator is evaluated.
def eval : Expr → StateM σ ν
  | number digits => I.act (.pushNumber (Numeral.decimal digits.chars none none).value) none []
  | name word => I.act .lookupValue (some word.chars) []
  | paren inner => eval inner
  | unary op operand => do
      let value ← eval operand
      I.act (.operator op.meaning) none [value]
  | binary op left right => do
      let first ← eval left
      match op.meaning with
      | .logicalAnd =>
          if I.truth first then
            let second ← eval right
            return I.ofBool (I.truth second)
          else return I.ofBool false
      | .logicalOr =>
          if I.truth first then return I.ofBool true
          else
            let second ← eval right
            return I.ofBool (I.truth second)
      | meaning =>
          let second ← eval right
          I.act (.operator meaning) none [first, second]
  | ternary condition yes no => do
      let decision ← eval condition
      if I.truth decision then eval yes else eval no
  | assign op target value => do
      let place ← I.act .lookupPointer (some target.chars) []
      let new ← eval value
      I.act (.assign op.meaning) none [place, new]
  | assignElement op target index value => do
      let whole ← I.act .lookupValue (some target.chars) []
      let key ← eval index
      let place ← I.act (.slicePointer .index) none [whole, key]
      let new ← eval value
      I.act (.assign op.meaning) none [place, new]
  | stepBefore step word => do
      let place ← I.act .lookupPointer (some word.chars) []
      I.act (.incDec step.before) none [place]
  | stepAfter step word => do
      let place ← I.act .lookupPointer (some word.chars) []
      I.act (.incDec step.after) none [place]
  | sequence left right => do
      let first ← eval left
      let second ← eval right
      I.act (.operator .sequence) none [first, second]
  | list items => do
      let values ← evalItems items
      I.act (.makeList items.length) none values
  | call function arguments => do
      let callee ← I.act .lookupValue (some function.chars) []
      let values ← evalItems arguments
      I.act (.call arguments.length) none (callee :: values)
  | element word index => do
      let whole ← I.act .lookupValue (some word.chars) []
      let key ← eval index
      I.act (.sliceValue .index) none [whole, key]

def evalItems : List Expr → StateM σ (List ν)
  | [] => return []
  | item :: more => do
      let value ← eval item
      let values ← evalItems more
      return value :: values

end

end Eval

end Expr

end FormulaCode
