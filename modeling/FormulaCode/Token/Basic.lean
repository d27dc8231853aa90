import FormulaCode.Operator
import FormulaCode.Text.Bytes
import FormulaCode.Token.Kind

namespace FormulaCode

-- The bracketed parts of a formula.
inductive Group where
  | substArgs
  | subExpr
  | list
  | dict
  | call
  | subscript
deriving DecidableEq, Repr

namespace Group

def kind : Group → TokenKind
  | substArgs => .substArgs
  | subExpr => .subExpr
  | list => .listLiteral
  | dict => .dictLiteral
  | call => .callArgs
  | subscript => .subscript

def opener : Group → Char
  | substArgs | subExpr | call => '('
  | list | subscript => '['
  | dict => '\x7b'

def closer : Group → Char
  | substArgs | subExpr | call => ')'
  | list | subscript => ']'
  | dict => '\x7d'

end Group

-- The end of a group, with what was found inside: the number of items between its commas, or
-- of key and value pairs, or the shape of a subscript.
inductive Closing where
  | substArgs (items : Nat)
  | subExpr
  | list (items : Nat)
  | dict (pairs : Nat)
  | call (items : Nat)
  | subscript (shape : Subscript)
deriving DecidableEq, Repr

namespace Closing

def group : Closing → Group
  | substArgs _ => .substArgs
  | subExpr => .subExpr
  | list _ => .list
  | dict _ => .dict
  | call _ => .call
  | subscript _ => .subscript

def items : Closing → Nat
  | substArgs items | list items | dict items | call items => items
  | subExpr => 0
  | subscript shape => shape.operands

end Closing

-- The marks that are written with the ternary operator's characters. `pair` stands between the
-- key and the value of a dictionary item.
inductive Ternary where
  | question
  | colon
  | pair
deriving DecidableEq, Repr

def Ternary.operator : Ternary → Operator
  | question => .question
  | colon => .colon
  | pair => .collect

-- What a token is. A `verbatim` string is its own text, with no quotes to take off.
inductive Form where
  | string (verbatim : Bool)
  | substitute
  | opening (group : Group)
  | closing (found : Closing)
  | sliceMark
  | stepAfter (op : Operator)
  | stepBefore (op : Operator)
  | name
  | memberName
  | dollarName
  | unary (op : Operator)
  | binary (op : Operator)
  | ternary (mark : Ternary)
  | number
  | dollar
  | dot
  | assign (op : Assignment)
  | finish (items : Nat)
deriving DecidableEq, Repr

-- What a token of a group does to it. The mark of a slice stands between its bounds.
inductive BracketRole where
  | opening
  | closing
  | sliceMark
deriving DecidableEq, Repr

def BracketRole.name : BracketRole → String
  | opening => "Open"
  | closing => "Close"
  | sliceMark => "SliceSep"

namespace Form

def kind : Form → TokenKind
  | string _ => .stringLiteral
  | substitute => .substOperator
  | opening group => group.kind
  | closing found => found.group.kind
  | sliceMark => .subscript
  | stepAfter _ => .postfixOp
  | stepBefore _ => .prefixOp
  | name => .name
  | memberName => .memberName
  | dollarName => .dollarName
  | unary _ => .unaryOp
  | binary _ => .binaryOp
  | ternary _ => .ternaryOp
  | number => .number
  | dollar => .dollar
  | dot => .dot
  | assign _ => .assignOp
  | finish _ => .finish

def operator? : Form → Option Operator
  | substitute => some .substitute
  | stepAfter op | stepBefore op | unary op | binary op => some op
  | ternary mark => some mark.operator
  | _ => none

def assignment? : Form → Option Assignment
  | assign op => some op
  | _ => none

def bracket? : Form → Option BracketRole
  | opening _ => some .opening
  | closing _ => some .closing
  | sliceMark => some .sliceMark
  | _ => none

def items : Form → Nat
  | closing found => found.items
  | finish items => items
  | _ => 0

def subscript? : Form → Option Subscript
  | closing (.subscript shape) => some shape
  | _ => none

def verbatim : Form → Bool
  | string verbatim => verbatim
  | _ => false

-- Zero for tokens that are no operators.
def precedence (form : Form) : Nat :=
  match form.operator?, form.assignment? with
  | some op, _ => op.precedence
  | none, some _ => Assignment.precedence
  | none, none => 0

def rightAssoc (form : Form) : Bool :=
  match form.operator?, form.assignment? with
  | some op, _ => op.rightAssoc
  | none, some _ => true
  | none, none => false

end Form

-- A part of a formula, with the byte offset at which its text stands.
structure Token where
  start : Nat
  text : List Char
  form : Form
deriving DecidableEq, Repr

namespace Token

def kind (token : Token) : TokenKind :=
  token.form.kind

def size (token : Token) : Nat :=
  byteLength token.text

-- The offset just behind the token.
def stop (token : Token) : Nat :=
  token.start + token.size

end Token

end FormulaCode
