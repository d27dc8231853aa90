namespace FormulaCode

-- The instructions by number, as an evaluator knows them. The numbers do not change.
inductive Opcode where
  | ret
  | pushNumber
  | pushString
  | lookupValue
  | lookupPointer
  | derefValue
  | derefPointer
  | sliceValue
  | makeDict
  | makeList
  | call
  | operator
  | assign
  | incDec
  | substitute
  | dollar
  | slicePointer
  | branchIfFalse
  | branchIfTrue
  | goto
  | makeBool
deriving DecidableEq, Repr

namespace Opcode

-- In the order of their numbers, from zero on.
def all : List Opcode :=
  [ret, pushNumber, pushString, lookupValue, lookupPointer, derefValue, derefPointer, sliceValue,
    makeDict, makeList, call, operator, assign, incDec, substitute, dollar, slicePointer,
    branchIfFalse, branchIfTrue, goto, makeBool]

def number (opcode : Opcode) : Nat :=
  opcode.ctorIdx

def ofNumber? (number : Nat) : Option Opcode :=
  all[number]?

def name : Opcode → String
  | ret => "Return"
  | pushNumber => "PushNumber"
  | pushString => "PushString"
  | lookupValue => "LookupValue"
  | lookupPointer => "LookupPointer"
  | derefValue => "DerefValue"
  | derefPointer => "DerefPointer"
  | sliceValue => "SliceValue"
  | makeDict => "MakeDict"
  | makeList => "MakeList"
  | call => "Call"
  | operator => "Operator"
  | assign => "Assign"
  | incDec => "IncDec"
  | substitute => "Substitute"
  | dollar => "Dollar"
  | slicePointer => "SlicePointer"
  | branchIfFalse => "BranchIfFalse"
  | branchIfTrue => "BranchIfTrue"
  | goto => "Goto"
  | makeBool => "MakeBool"

def mnemonic : Opcode → String
  | ret => "RETURN"
  | pushNumber => "PUSH_NUM"
  | pushString => "PUSH_STR"
  | lookupValue => "LOOKUP"
  | lookupPointer => "LOOKUP_PTR"
  | derefValue => "DEREF"
  | derefPointer => "DEREF_PTR"
  | sliceValue => "SLICE"
  | makeDict => "MAKE_DICT"
  | makeList => "MAKE_LIST"
  | call => "CALL"
  | operator => "OP"
  | assign => "ASSIGN"
  | incDec => "INCDEC"
  | substitute => "SUBST"
  | dollar => "DOLLAR"
  | slicePointer => "SLICE_PTR"
  | branchIfFalse => "BRANCH_FALSE"
  | branchIfTrue => "BRANCH_TRUE"
  | goto => "GOTO"
  | makeBool => "MAKE_BOOL"

theorem ofNumber?_number (opcode : Opcode) : ofNumber? opcode.number = some opcode := by
  cases opcode <;> rfl

end Opcode

end FormulaCode
