namespace FormulaCode

-- Every operator of a formula but the assignments. `sequence` is the comma that keeps its right
-- side, `collect` the comma between items of a bracket, `substitute` the `%` after a string.
inductive Operator where
  | negate
  | unaryPlus
  | bitNot
  | not
  | postDecrement
  | postIncrement
  | preDecrement
  | preIncrement
  | power
  | multiply
  | divide
  | modulo
  | add
  | subtract
  | shiftLeft
  | shiftRight
  | less
  | lessEqual
  | greaterEqual
  | greater
  | equal
  | notEqual
  | bitAnd
  | bitXor
  | bitOr
  | logicalAnd
  | logicalOr
  | sequence
  | collect
  | question
  | colon
  | substitute
deriving DecidableEq, Repr

namespace Operator

-- All operators, in the order of their wire numbers.
def all : List Operator :=
  [negate, unaryPlus, bitNot, not, postDecrement, postIncrement, preDecrement, preIncrement,
    power, multiply, divide, modulo, add, subtract, shiftLeft, shiftRight, less, lessEqual,
    greaterEqual, greater, equal, notEqual, bitAnd, bitXor, bitOr, logicalAnd, logicalOr,
    sequence, collect, question, colon, substitute]

def name : Operator → String
  | negate => "Negate"
  | unaryPlus => "UnaryPlus"
  | bitNot => "BitNot"
  | not => "Not"
  | postDecrement => "PostDecrement"
  | postIncrement => "PostIncrement"
  | preDecrement => "PreDecrement"
  | preIncrement => "PreIncrement"
  | power => "Power"
  | multiply => "Multiply"
  | divide => "Divide"
  | modulo => "Modulo"
  | add => "Add"
  | subtract => "Subtract"
  | shiftLeft => "ShiftLeft"
  | shiftRight => "ShiftRight"
  | less => "Less"
  | lessEqual => "LessEqual"
  | greaterEqual => "GreaterEqual"
  | greater => "Greater"
  | equal => "Equal"
  | notEqual => "NotEqual"
  | bitAnd => "BitAnd"
  | bitXor => "BitXor"
  | bitOr => "BitOr"
  | logicalAnd => "LogicalAnd"
  | logicalOr => "LogicalOr"
  | sequence => "Sequence"
  | collect => "Collect"
  | question => "Question"
  | colon => "Colon"
  | substitute => "Substitute"

-- The number by which an evaluator knows the operator.
def code : Operator → Nat
  | postDecrement => 0x21
  | postIncrement => 0x22
  | preDecrement => 0x23
  | preIncrement => 0x24
  | negate => 0x25
  | unaryPlus => 0x26
  | bitNot => 0x27
  | not => 0x28
  | substitute => 0x40
  | power => 0x49
  | multiply => 0x4A
  | divide => 0x4B
  | modulo => 0x4C
  | add => 0x4D
  | subtract => 0x4E
  | shiftLeft => 0x4F
  | shiftRight => 0x50
  | less => 0x51
  | lessEqual => 0x52
  | greaterEqual => 0x53
  | greater => 0x54
  | equal => 0x55
  | notEqual => 0x56
  | bitAnd => 0x57
  | bitXor => 0x58
  | bitOr => 0x59
  | logicalAnd => 0x5A
  | logicalOr => 0x5B
  | sequence => 0x5C
  | collect => 0x5F
  | question => 0x7D
  | colon => 0x7E

-- Lower binds tighter.
def precedence : Operator → Nat
  | power => 2
  | negate | unaryPlus | bitNot | not => 3
  | postDecrement | postIncrement | preDecrement | preIncrement => 3
  | substitute => 4
  | multiply | divide | modulo => 5
  | add | subtract => 6
  | shiftLeft | shiftRight => 7
  | less | lessEqual | greaterEqual | greater => 8
  | equal => 9
  | notEqual => 10
  | bitAnd => 11
  | bitXor => 12
  | bitOr => 13
  | logicalAnd => 14
  | logicalOr => 15
  | question | colon => 16
  | sequence | collect => 18

def rightAssoc : Operator → Bool
  | power | negate | unaryPlus | bitNot | not => true
  | postDecrement | postIncrement | preDecrement | preIncrement => true
  | question | colon => true
  | _ => false

-- The number of values an evaluator takes from its stack.
def arity : Operator → Nat
  | negate | unaryPlus | bitNot | not => 1
  | postDecrement | postIncrement | preDecrement | preIncrement => 1
  | collect => 0
  | _ => 2

def symbol : Operator → String
  | negate | subtract => "-"
  | unaryPlus | add => "+"
  | bitNot => "~"
  | not => "!"
  | postDecrement | preDecrement => "--"
  | postIncrement | preIncrement => "++"
  | power => "**"
  | multiply => "*"
  | divide => "/"
  | modulo | substitute => "%"
  | shiftLeft => "<<"
  | shiftRight => ">>"
  | less => "<"
  | lessEqual => "<="
  | greaterEqual => ">="
  | greater => ">"
  | equal => "=="
  | notEqual => "!="
  | bitAnd => "&"
  | bitXor => "^"
  | bitOr => "|"
  | logicalAnd => "&&"
  | logicalOr => "||"
  | sequence | collect => ","
  | question => "?"
  | colon => ":"

-- Spellings where a value is expected. The first that fits is taken.
def unarySpellings : List (List Char × Operator) :=
  [(['n', 'o', 't'], not), (['N', 'O', 'T'], not), (['-'], negate), (['+'], unaryPlus),
    (['~'], bitNot), (['!'], not)]

-- Spellings after a value. None stands behind a shorter one that it starts with.
def binarySpellings : List (List Char × Operator) :=
  [(['a', 'n', 'd'], logicalAnd), (['A', 'N', 'D'], logicalAnd), (['o', 'r'], logicalOr),
    (['O', 'R'], logicalOr), (['*', '*'], power), (['<', '<'], shiftLeft),
    (['>', '>'], shiftRight), (['<', '='], lessEqual), (['>', '='], greaterEqual),
    (['=', '='], equal), (['<', '>'], notEqual), (['!', '='], notEqual),
    (['&', '&'], logicalAnd), (['|', '|'], logicalOr), (['*'], multiply), (['/'], divide),
    (['%'], modulo), (['+'], add), (['-'], subtract), (['<'], less), (['>'], greater),
    (['&'], bitAnd), (['^'], bitXor), (['|'], bitOr)]

end Operator

-- The plain assignment and those that apply an operator to the old value.
inductive Assignment where
  | assign
  | addAssign
  | subAssign
  | mulAssign
  | divAssign
  | modAssign
  | andAssign
  | xorAssign
  | orAssign
  | shlAssign
  | shrAssign
  | powAssign
deriving DecidableEq, Repr

namespace Assignment

-- All assignments, in the order of their wire numbers.
def all : List Assignment :=
  [assign, addAssign, subAssign, mulAssign, divAssign, modAssign, andAssign, xorAssign, orAssign,
    shlAssign, shrAssign, powAssign]

def name : Assignment → String
  | assign => "Assign"
  | addAssign => "AddAssign"
  | subAssign => "SubAssign"
  | mulAssign => "MulAssign"
  | divAssign => "DivAssign"
  | modAssign => "ModAssign"
  | andAssign => "AndAssign"
  | xorAssign => "XorAssign"
  | orAssign => "OrAssign"
  | shlAssign => "ShlAssign"
  | shrAssign => "ShrAssign"
  | powAssign => "PowAssign"

def code : Assignment → Nat
  | assign => 0x40
  | addAssign => 0x41
  | subAssign => 0x42
  | mulAssign => 0x43
  | divAssign => 0x44
  | modAssign => 0x45
  | andAssign => 0x46
  | xorAssign => 0x47
  | orAssign => 0x48
  | shlAssign => 0x49
  | shrAssign => 0x4A
  | powAssign => 0x4B

-- Between the ternary operator and the comma.
def precedence : Nat := 17

def symbol : Assignment → String
  | assign => "="
  | addAssign => "+="
  | subAssign => "-="
  | mulAssign => "*="
  | divAssign => "/="
  | modAssign => "%="
  | andAssign => "&="
  | xorAssign => "^="
  | orAssign => "|="
  | shlAssign => "<<="
  | shrAssign => ">>="
  | powAssign => "**="

def spellings : List (List Char × Assignment) :=
  [(['<', '<', '='], shlAssign), (['>', '>', '='], shrAssign), (['*', '*', '='], powAssign),
    (['+', '='], addAssign), (['-', '='], subAssign), (['*', '='], mulAssign),
    (['/', '='], divAssign), (['%', '='], modAssign), (['&', '='], andAssign),
    (['^', '='], xorAssign), (['|', '='], orAssign), (['='], assign)]

end Assignment

-- What stands in the brackets of an element access: an index, or the bounds of a slice, each
-- of which may be left out.
inductive Subscript where
  | index
  | slice (min max : Bool)
deriving DecidableEq, Repr

namespace Subscript

-- The number of bounds, which is the number of values an evaluator takes for them.
def operands : Subscript → Nat
  | index => 1
  | slice min max => min.toNat + max.toNat

-- A slice with only an upper bound cannot be assigned to.
def assignable : Subscript → Bool
  | slice false true => false
  | _ => true

end Subscript

end FormulaCode
