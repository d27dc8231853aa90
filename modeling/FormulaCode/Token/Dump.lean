import FormulaCode.Code.Op
import FormulaCode.Text.Column
import FormulaCode.Text.Quoted
import FormulaCode.Token.Basic

namespace FormulaCode

-- How tokens are listed: with or without colours, and in full or with only what matters.
structure DumpStyle where
  color : Bool := true
  pretty : Bool := false
deriving DecidableEq, Repr

def TokenKind.classLabel : TokenKind → String
  | start | finish => "END"
  | stringLiteral | number => "LITERAL"
  | name | memberName | dollarName => "NAME"
  | dollar | dot => "ACCESS"
  | substOperator | postfixOp | prefixOp | unaryOp | binaryOp | ternaryOp => "OP"
  | assignOp => "ASSIGN"
  | substArgs | subExpr | listLiteral | dictLiteral | callArgs | subscript => "BRACKET"

def resetColor : String := "\x1b[0m"

def TokenKind.color : TokenKind → String
  | start | finish => "\x1b[2m"
  | stringLiteral => "\x1b[32m"
  | number => "\x1b[36m"
  | name | memberName | dollarName => "\x1b[33m"
  | substOperator | postfixOp | prefixOp | unaryOp | binaryOp | ternaryOp | assignOp => "\x1b[35m"
  | _ => resetColor

-- The line and the column of an offset, both from one on. Columns count bytes.
def lineColumn (source : List Char) (offset : Nat) : Nat × Nat :=
  let before := (splitAtByte offset source).1
  (before.count '\n' + 1, byteLength (before.reverse.takeWhile (· ≠ '\n')) + 1)

namespace Token

-- The full form of a token, with the fields that do not apply to it.
def fullText (token : Token) : String :=
  let form := token.form
  "Token \x7b kind: " ++ token.kind.label ++ ", start: " ++ toString token.start ++
    ", len: " ++ toString token.size ++
    ", operator: " ++ optionText Operator.name form.operator? ++
    ", assign: " ++ optionText Assignment.name form.assignment? ++
    ", precedence: " ++ toString form.precedence ++
    ", right_assoc: " ++ boolText form.rightAssoc ++
    ", bracket: " ++ optionText BracketRole.name form.bracket? ++
    ", items: " ++ toString form.items ++
    ", subscript: " ++ optionText Subscript.text form.subscript? ++
    ", verbatim: " ++ boolText form.verbatim ++ " \x7d"

def formText : Form → String
  | .opening _ => " open"
  | .closing found => " close items=" ++ toString found.items ++
      match found with
      | .subscript shape => " " ++ shape.text
      | _ => ""
  | .sliceMark => " slice"
  | .assign op => " assign=" ++ op.name
  | .string true => " verbatim"
  | form => match form.operator? with
      | some op => " op=" ++ op.name ++ " prec=" ++ toString op.precedence
      | none => ""

def briefText (token : Token) : String :=
  token.kind.label ++
    (if token.text.isEmpty then "" else " " ++ String.ofList (quote token.text)) ++
    formText token.form

def dumpLine (style : DumpStyle) (source : List Char) (token : Token) : String :=
  let (line, column) := lineColumn source token.start
  "[" ++ zeroPad 2 (toString line) ++ ":" ++ zeroPad 2 (toString column) ++ "] " ++
    (if style.color then token.kind.color else "") ++ padRight 8 token.kind.classLabel ++ " " ++
    (if style.pretty then token.briefText else token.fullText) ++
    (if style.color then resetColor else "") ++ "\n"

end Token

def dumpTokens (style : DumpStyle) (source : List Char) (tokens : List Token) : String :=
  String.join (tokens.map (Token.dumpLine style source))

-- One letter for each byte from `pos` to `stop`: the state of the token that holds the byte, or
-- a space between tokens. The tokens stand in order.
def stateLetters (stop : Nat) : Nat → List Token → List Char
  | pos, [] => List.replicate (stop - pos) ' '
  | pos, token :: rest =>
      List.replicate (token.start - pos) ' ' ++ List.replicate token.size token.kind.letter ++
        stateLetters stop token.stop rest

def stateString (source : List Char) (tokens : List Token) : String :=
  String.ofList (stateLetters (byteLength source) 0 tokens)

end FormulaCode
