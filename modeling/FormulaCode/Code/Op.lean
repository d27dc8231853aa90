import FormulaCode.Code.Opcode
import FormulaCode.Decimal.Notation
import FormulaCode.Operator

namespace FormulaCode

-- A conditional jump. The condition is taken from the stack when the jump is not made, and with
-- `popOnBranch` also when it is. The target is missing until it is known.
structure Branch where
  target : Option Nat
  popOnBranch : Bool
deriving DecidableEq, Repr

-- One instruction. Those that name something carry the name in the records behind them. The
-- pointer forms of a look-up, a member and an element leave a place to assign to.
inductive Op where
  | ret
  | pushNumber (value : Binary64)
  | pushString
  | lookupValue
  | lookupPointer
  | derefValue
  | derefPointer
  | sliceValue (shape : Subscript)
  | slicePointer (shape : Subscript)
  | makeDict (pairs : Nat)
  | makeList (items : Nat)
  | call (arguments : Nat)
  | operator (op : Operator)
  | assign (op : Assignment)
  | incDec (op : Operator)
  | substitute (items : Nat)
  | dollar
  | branchIfFalse (branch : Branch)
  | branchIfTrue (branch : Branch)
  | goto (target : Option Nat)
  | makeBool
deriving DecidableEq, Repr

namespace Op

def opcode : Op → Opcode
  | ret => .ret
  | pushNumber _ => .pushNumber
  | pushString => .pushString
  | lookupValue => .lookupValue
  | lookupPointer => .lookupPointer
  | derefValue => .derefValue
  | derefPointer => .derefPointer
  | sliceValue _ => .sliceValue
  | slicePointer _ => .slicePointer
  | makeDict _ => .makeDict
  | makeList _ => .makeList
  | call _ => .call
  | operator _ => .operator
  | assign _ => .assign
  | incDec _ => .incDec
  | substitute _ => .substitute
  | dollar => .dollar
  | branchIfFalse _ => .branchIfFalse
  | branchIfTrue _ => .branchIfTrue
  | goto _ => .goto
  | makeBool => .makeBool

-- Whether a text follows the instruction.
def hasText : Op → Bool
  | pushString | lookupValue | lookupPointer | derefValue | derefPointer => true
  | _ => false

-- The form of an access that can be assigned to.
def pointerForm? : Op → Option Op
  | lookupValue => some lookupPointer
  | derefValue => some derefPointer
  | sliceValue shape => if shape.assignable then some (slicePointer shape) else none
  | _ => none

def isBranch : Op → Bool
  | branchIfFalse _ | branchIfTrue _ | goto _ => true
  | _ => false

def target? : Op → Option Nat
  | branchIfFalse branch | branchIfTrue branch => branch.target
  | goto target => target
  | _ => none

-- Points a jump at a record. Other instructions have no target.
def withTarget? (target : Nat) : Op → Option Op
  | branchIfFalse branch => some (branchIfFalse { branch with target := some target })
  | branchIfTrue branch => some (branchIfTrue { branch with target := some target })
  | goto _ => some (goto (some target))
  | _ => none

-- The number of values taken from the stack when the next instruction follows.
def pops : Op → Nat
  | pushNumber _ | pushString | lookupValue | lookupPointer | goto _ => 0
  | ret | derefValue | derefPointer | incDec _ | dollar | makeBool => 1
  | branchIfFalse _ | branchIfTrue _ => 1
  | assign _ => 2
  | sliceValue shape | slicePointer shape => 1 + shape.operands
  | makeDict pairs => 2 * pairs
  | makeList items => items
  | call arguments => arguments + 1
  | substitute items => items + 1
  | operator op => op.arity

def pushes : Op → Nat
  | ret | goto _ | branchIfFalse _ | branchIfTrue _ => 0
  | _ => 1

end Op

def boolText (b : Bool) : String :=
  if b then "true" else "false"

def optionText (text : α → String) : Option α → String
  | none => "None"
  | some a => "Some(" ++ text a ++ ")"

def Subscript.text : Subscript → String
  | index => "Index"
  | slice min max =>
      "Slice \x7b min: " ++ boolText min ++ ", max: " ++ boolText max ++ " \x7d"

def Branch.text (branch : Branch) : String :=
  "Branch \x7b target: " ++ optionText toString branch.target ++ ", pop_on_branch: " ++
    boolText branch.popOnBranch ++ " \x7d"

def Op.operandText? : Op → Option String
  | pushNumber value => some value.text
  | sliceValue shape | slicePointer shape => some shape.text
  | makeDict count | makeList count | call count | substitute count => some (toString count)
  | operator op | incDec op => some op.name
  | assign op => some op.name
  | branchIfFalse branch | branchIfTrue branch => some branch.text
  | goto target => some (optionText toString target)
  | _ => none

-- The full form of an instruction, with its operand in parentheses.
def Op.text (op : Op) : String :=
  match op.operandText? with
  | some operand => op.opcode.name ++ "(" ++ operand ++ ")"
  | none => op.opcode.name

end FormulaCode
