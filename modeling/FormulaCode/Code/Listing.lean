import FormulaCode.Code.Basic
import FormulaCode.Text.Column
import FormulaCode.Text.Quoted

namespace FormulaCode

-- A place as it is numbered in listings.
def placeText (index : Nat) : String :=
  zeroPad 4 (toString index)

def targetText : Option Nat → String
  | some target => "→ " ++ placeText target
  | none => "→ ????"

def Branch.listing (branch : Branch) : String :=
  targetText branch.target ++ (if branch.popOnBranch then " pop" else "")

def Subscript.listing : Subscript → String
  | index => "[i]"
  | slice true true => "[lo:hi]"
  | slice true false => "[lo:]"
  | slice false true => "[:hi]"
  | slice false false => "[:]"

-- The symbol of an operator with its number.
def symbolListing (symbol : String) (code : Nat) : String :=
  padRight 3 symbol ++ " (0x" ++ zeroPad 2 (upperHex code) ++ ")"

def Operator.stepListing : Operator → String
  | preIncrement => "++x"
  | preDecrement => "--x"
  | op => "x" ++ op.symbol

-- The operand of an instruction. `text?` is the text behind it.
def Op.operandListing? (text? : Option (List Char)) : Op → Option String
  | pushNumber value => some value.text
  | pushString | lookupValue | lookupPointer | derefValue | derefPointer =>
      some ((text?.map fun text => String.ofList (quote text)).getD "<bad text>")
  | sliceValue shape | slicePointer shape => some shape.listing
  | makeDict count | makeList count | call count | substitute count => some (toString count)
  | operator op => some (symbolListing op.symbol op.code)
  | assign op => some (symbolListing op.symbol op.code)
  | incDec op => some op.stepListing
  | branchIfFalse branch | branchIfTrue branch => some branch.listing
  | goto target => some (targetText target)
  | ret | dollar | makeBool => none

def Op.listing (op : Op) (text? : Option (List Char)) : String :=
  match op.operandListing? text? with
  | some operand => padRight 12 op.opcode.mnemonic ++ " " ++ operand
  | none => op.opcode.mnemonic

-- The values taken and left, as in `( a b -- x )`.
def stackPicture (pops pushes : Nat) : String :=
  let inputs :=
    if pops ≤ 4 then String.join ((["a", "b", "c", "d"].take pops).map (" " ++ ·))
    else " a1..a" ++ toString pops
  "(" ++ inputs ++ " --" ++ (if pushes = 1 then " x" else "") ++ " )"

namespace Code

def targets (code : Code) : List Nat :=
  code.walk.filterMap fun (_, instr) => instr.op.target?

def instrListing (code : Code) (targets : List Nat) (index : Nat) (instr : Instr) : String :=
  let reached := targets.contains index
  (if reached then "      ┌──────────────────────────────────\n" else "") ++
    placeText index ++ " " ++ (if reached then "► " else "  ") ++
    padRight 32 (instr.op.listing (code.textAt? index)) ++ "; " ++
    stackPicture instr.op.pops instr.op.pushes ++ "\n"

-- One line for each instruction, with its operand and its effect on the stack. A line above
-- marks the places that branches lead to. Texts show as gaps in the numbering.
def listing (code : Code) : String :=
  let targets := code.targets
  String.join (code.walk.map fun (index, instr) => code.instrListing targets index instr)

-- One line for each instruction in its full form.
def compactListing (code : Code) : String :=
  "-- " ++ toString code.size ++ " records --\n" ++
    String.join (code.walk.map fun (index, instr) =>
      "  " ++ placeText index ++ "  " ++ instr.op.text ++ "\n")

end Code

end FormulaCode
