namespace FormulaCode

-- The role of a token. Each role is also a state of the tokenizer, which lets only certain
-- roles follow it. `start` is the state before the first token.
inductive TokenKind where
  | start
  | stringLiteral
  | substOperator
  | substArgs
  | subExpr
  | postfixOp
  | name
  | prefixOp
  | unaryOp
  | binaryOp
  | ternaryOp
  | number
  | listLiteral
  | dictLiteral
  | dollar
  | callArgs
  | subscript
  | dot
  | assignOp
  | memberName
  | finish
  | dollarName
deriving DecidableEq, Repr

namespace TokenKind

def all : List TokenKind :=
  [start, stringLiteral, substOperator, substArgs, subExpr, postfixOp, name, prefixOp, unaryOp,
    binaryOp, ternaryOp, number, listLiteral, dictLiteral, dollar, callArgs, subscript, dot,
    assignOp, memberName, finish, dollarName]

def label : TokenKind → String
  | start => "Start"
  | stringLiteral => "StringLiteral"
  | substOperator => "SubstOperator"
  | substArgs => "SubstArgs"
  | subExpr => "SubExpr"
  | postfixOp => "PostfixOp"
  | name => "Name"
  | prefixOp => "PrefixOp"
  | unaryOp => "UnaryOp"
  | binaryOp => "BinaryOp"
  | ternaryOp => "TernaryOp"
  | number => "Number"
  | listLiteral => "ListLiteral"
  | dictLiteral => "DictLiteral"
  | dollar => "Dollar"
  | callArgs => "CallArgs"
  | subscript => "Subscript"
  | dot => "Dot"
  | assignOp => "AssignOp"
  | memberName => "MemberName"
  | finish => "End"
  | dollarName => "DollarName"

-- The letter of a state, which are numbered from `A`.
def letter (kind : TokenKind) : Char :=
  Char.ofNat ('A'.toNat + kind.ctorIdx)

-- The roles that may follow, in the order in which they are tried.
def successors : TokenKind → List TokenKind
  | start | binaryOp | ternaryOp | assignOp =>
      [stringLiteral, subExpr, name, prefixOp, unaryOp, number, listLiteral, dictLiteral, dollar]
  | stringLiteral => [substOperator, binaryOp, ternaryOp, subscript, finish]
  | substOperator =>
      [stringLiteral, substArgs, name, prefixOp, unaryOp, number, listLiteral, dictLiteral, dollar]
  | substArgs => [binaryOp, ternaryOp, subscript, finish]
  | subExpr | listLiteral | dictLiteral => [binaryOp, ternaryOp, subscript, dot, finish]
  | postfixOp | number | dollarName => [binaryOp, ternaryOp, finish]
  | name | memberName =>
      [postfixOp, binaryOp, ternaryOp, callArgs, subscript, dot, assignOp, finish]
  | prefixOp => [name]
  | unaryOp =>
      [stringLiteral, subExpr, name, prefixOp, number, listLiteral, dictLiteral, dollar]
  | dollar => [subExpr, number, dollarName]
  | callArgs => [binaryOp, ternaryOp, callArgs, subscript, dot, finish]
  | subscript => [binaryOp, ternaryOp, callArgs, subscript, assignOp, finish]
  | dot => [memberName]
  | finish => []

-- How a role is named when it was expected and did not come.
def phrase : TokenKind → String
  | stringLiteral | number | listLiteral | dictLiteral | dollar => "a literal value"
  | substOperator => "a string substitution operator"
  | substArgs => "a list of string substitutions"
  | subExpr => "a bracketed expression"
  | postfixOp | prefixOp | unaryOp => "a unary operator"
  | name | memberName | dollarName => "a variable name"
  | binaryOp | ternaryOp | assignOp => "a binary/ternary operator"
  | callArgs => "a list of function arguments"
  | subscript | dot => "an object dereference"
  | start | finish => "the end of the expression"

end TokenKind

end FormulaCode
