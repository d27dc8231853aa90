import FormulaCode.Fault
import FormulaCode.Literal
import FormulaCode.Number
import FormulaCode.Token.Basic

namespace FormulaCode

-- What the caller lets a formula hold. A comma outside brackets ends the formula unless it may
-- be an operator. `dict` says that the text is the inside of a dictionary.
structure Permissions where
  dollar : Bool := false
  assignment : Bool := false
  commaOperator : Bool := false
  dict : Bool := false
deriving DecidableEq, Repr

-- What a comma means between two brackets, and what has been counted there so far: items, the
-- one being read included, or pairs whose value has begun.
inductive Separators where
  | sequence
  | terminate
  | items (count : Nat)
  | pairs (count : Nat) (inKey : Bool)
deriving DecidableEq, Repr

-- What the name just read makes of a bracket behind it: a call, a call whose argument is taken
-- as text, or the call that must follow a function that binds a variable.
inductive Callee where
  | plain
  | textual
  | binder
deriving DecidableEq, Repr

-- One nesting level of brackets. The lower bound of a slice stops at a colon of its own.
structure Level where
  top : Bool
  stopAtColon : Bool
  depth : Nat
deriving DecidableEq, Repr

-- Where the tokenizer stands in a level.
structure Cursor where
  pos : Nat
  state : TokenKind
  ternaries : Nat
  separators : Separators
  callee : Callee
deriving DecidableEq, Repr

def Cursor.start (pos : Nat) (separators : Separators) : Cursor :=
  ⟨pos, .start, 0, separators, .plain⟩

def Cursor.candidates (cur : Cursor) : List TokenKind :=
  match cur.callee with
  | .binder => [.callArgs]
  | _ => cur.state.successors

-- What does not change while a text is read.
structure Setup where
  permissions : Permissions
  scanner : NumberScanner
  maxDepth : Option Nat

-- What to do at the cursor. A token takes `extra` characters after its first. A binder is a
-- name of `stem` characters with the name of its variable run on to it.
inductive Move where
  | token (form : Form) (extra : Nat) (next : Cursor)
  | binder (stem extra : Nat)
  | group (group : Group)
  | finish
deriving DecidableEq, Repr

-- Words that are operators and never names.
def keywords : List (List Char) :=
  [['a', 'n', 'd'], ['o', 'r'], ['n', 'o', 't'], ['A', 'N', 'D'], ['O', 'R'], ['N', 'O', 'T']]

-- Functions whose argument is taken as text.
def textFunctions : List (List Char) :=
  [['u', 'n', 'i', 't'], ['t', 'e', 'x', 'i', 'f', 'y']]

-- What the names of functions that bind a variable begin with, as in `diff_dx(x**2, 1)`.
def binderStems : List (List Char) :=
  [['d', 'i', 'f', 'f', '_', 'd'], ['i', 'n', 't', '_', 'd']]

def startsWithLetter (text : List Char) : Bool :=
  text.head?.any Char.isAlpha

def word? (text : List Char) : Option (List Char) :=
  if startsWithLetter text then some (text.takeWhile isIdentChar) else none

def binderStem? (word : List Char) : Option (List Char) :=
  binderStems.find? fun stem =>
    stem.isPrefixOf word && startsWithLetter (word.drop stem.length)

-- The first entry whose spelling the text begins with. A spelling of letters must be a whole
-- word.
def spelled? (table : List (List Char × α)) (text : List Char) : Option (List Char × α) :=
  table.find? fun (spelling, _) =>
    spelling.isPrefixOf text &&
      !(startsWithLetter spelling && (text.drop spelling.length).head?.any isIdentChar)

-- Two equals signs are a comparison.
def assignment? (text : List Char) : Option (List Char × Assignment) :=
  if ['=', '='].isPrefixOf text then none else spelled? Assignment.spellings text

namespace Cursor

def fail (cur : Cursor) (fault : Fault) : Except LexError α :=
  .error ⟨cur.pos, .fault fault⟩

-- A token that changes nothing but the position.
def token (cur : Cursor) (form : Form) (width : Nat) : Option Move :=
  some (.token form (width - 1) { cur with callee := .plain })

-- A comma inside a ternary operator is the sequence operator whatever surrounds it.
def comma (cur : Cursor) : Except LexError (Option Move) :=
  if 0 < cur.ternaries then .ok (cur.token (.binary .sequence) 1)
  else match cur.separators with
    | .terminate => .ok none
    | .sequence => .ok (cur.token (.binary .sequence) 1)
    | .items count =>
        .ok ({ cur with separators := .items (count + 1) }.token (.binary .collect) 1)
    | .pairs _ true => cur.fail .missingValue
    | .pairs count false =>
        .ok ({ cur with separators := .pairs count true }.token (.binary .collect) 1)

def question (cur : Cursor) : Option Move :=
  { cur with ternaries := cur.ternaries + 1 }.token (.ternary .question) 1

-- A colon belongs to the innermost open `?`. Without one it divides the pair of a dictionary, or
-- ends the lower bound of a slice.
def colon (level : Level) (cur : Cursor) : Except LexError (Option Move) :=
  match cur.ternaries, cur.separators with
  | ternaries + 1, _ => .ok ({ cur with ternaries }.token (.ternary .colon) 1)
  | 0, .pairs _ false => cur.fail .missingComma
  | 0, .pairs count true =>
      .ok ({ cur with separators := .pairs (count + 1) false }.token (.ternary .pair) 1)
  | 0, _ => if level.stopAtColon then .ok none else cur.fail .strayColon

def stringToken (cur : Cursor) (text : List Char) : Except LexError (Option Move) :=
  match Literal.scan text with
  | .absent => .ok none
  | .unterminated => cur.fail .mismatchedQuote
  | .found literal => .ok (cur.token (.string false) literal.width)

def groupMove (group : Group) (text : List Char) : Option Move :=
  if text.head? = some group.opener then some (.group group) else none

def stepMove (cur : Cursor) (minus plus : Form) (text : List Char) : Option Move :=
  if ['-', '-'].isPrefixOf text then cur.token minus 2
  else if ['+', '+'].isPrefixOf text then cur.token plus 2
  else none

def nameMove (cur : Cursor) (text : List Char) : Option Move := do
  let word ← word? text
  if keywords.contains word then none
  else match binderStem? word with
    | some stem => some (.binder stem.length (word.length - 1))
    | none =>
        let callee := if textFunctions.contains word then .textual else .plain
        some (.token .name (word.length - 1) { cur with callee })

-- An assignment wins over an operator that begins like it, wherever one may follow.
def binaryMove (setup : Setup) (cur : Cursor) (text : List Char) : Except LexError (Option Move) :=
  if text.head? = some ',' then cur.comma
  else if setup.permissions.assignment && cur.state.successors.contains .assignOp &&
      (assignment? text).isSome then .ok none
  else .ok (do
    let (spelling, op) ← spelled? Operator.binarySpellings text
    cur.token (.binary op) spelling.length)

def ternaryMove (level : Level) (cur : Cursor) (text : List Char) :
    Except LexError (Option Move) :=
  if text.head? = some '?' then .ok cur.question
  else if text.head? = some ':' then cur.colon level
  else .ok none

-- A scanner that takes nothing, or more than there is, has found no number.
def numberMove (setup : Setup) (cur : Cursor) (text : List Char) : Option Move := do
  let (_, width) ← setup.scanner text
  if 0 < width && width ≤ text.length then cur.token .number width else none

-- A formula may stop anywhere. Inside brackets only the bracket ends a level, or the colon of a
-- slice.
def finishMove (level : Level) (cur : Cursor) (text : List Char) : Option Move :=
  if level.top || text.isEmpty ||
      (level.stopAtColon && cur.ternaries = 0 && text.head? = some ':') then some .finish
  else none

end Cursor

-- What a text gives when a token of one kind is looked for at its start.
def recognise (setup : Setup) (level : Level) (cur : Cursor) (text : List Char) :
    TokenKind → Except LexError (Option Move)
  | .start => .ok none
  | .stringLiteral => cur.stringToken text
  | .substOperator =>
      .ok (if text.head? = some '%' && !(['%', '='].isPrefixOf text) then cur.token .substitute 1
        else none)
  | .substArgs => .ok (Cursor.groupMove .substArgs text)
  | .subExpr => .ok (Cursor.groupMove .subExpr text)
  | .callArgs => .ok (Cursor.groupMove .call text)
  | .listLiteral => .ok (Cursor.groupMove .list text)
  | .dictLiteral => .ok (Cursor.groupMove .dict text)
  | .subscript => .ok (Cursor.groupMove .subscript text)
  | .postfixOp =>
      .ok (cur.stepMove (.stepAfter .postDecrement) (.stepAfter .postIncrement) text)
  | .prefixOp =>
      .ok (cur.stepMove (.stepBefore .preDecrement) (.stepBefore .preIncrement) text)
  | .name => .ok (cur.nameMove text)
  | .memberName => .ok ((word? text).bind fun word => cur.token .memberName word.length)
  | .dollarName => .ok ((word? text).bind fun word => cur.token .dollarName word.length)
  | .unaryOp =>
      .ok (do
        let (spelling, op) ← spelled? Operator.unarySpellings text
        cur.token (.unary op) spelling.length)
  | .binaryOp => cur.binaryMove setup text
  | .ternaryOp => cur.ternaryMove level text
  | .number => .ok (cur.numberMove setup text)
  | .dollar =>
      .ok (if setup.permissions.dollar && text.head? = some '$' then cur.token .dollar 1
        else none)
  | .dot => .ok (if text.head? = some '.' then cur.token .dot 1 else none)
  | .assignOp =>
      .ok (if setup.permissions.assignment then do
        let (spelling, op) ← assignment? text
        cur.token (.assign op) spelling.length
      else none)
  | .finish => .ok (cur.finishMove level text)

-- The first kind that may come next and does.
def nextMove (setup : Setup) (level : Level) (cur : Cursor) (text : List Char) :
    Except LexError Move := do
  match ← cur.candidates.findSomeM? (recognise setup level cur text) with
  | some move => .ok move
  | none => cur.fail (.expected cur.candidates)

end FormulaCode
