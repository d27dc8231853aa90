import FormulaCode.Token.Kind

namespace FormulaCode

-- The rules that a formula can break.
inductive Fault where
  | mismatchedQuote
  | mismatchedBracket (opener closer : Char)
  | expected (kinds : List TokenKind)
  | missingValue
  | missingComma
  | strayColon
  | unmatchedQuestion
  | notAssignable
  | noLowerBound
  | nulCharacter
  -- A rule of the caller, in the caller's words.
  | stated (message : String)
deriving DecidableEq, Repr

namespace Fault

-- The roles that would have been accepted, each phrase once. The end of the formula is accepted
-- silently and is not named.
def expectation (kinds : List TokenKind) : String :=
  " or ".intercalate ((kinds.filter (· ≠ .finish)).map TokenKind.phrase).eraseDups

def message : Fault → String
  | mismatchedQuote => "Syntax Error: Mismatched quote"
  | mismatchedBracket opener closer =>
      "Syntax Error: Mismatched " ++ String.singleton opener ++ " " ++ String.singleton closer
  | expected kinds =>
      "Syntax Error: At this point, was expecting " ++ expectation kinds ++ "."
  | missingValue => "Syntax Error: Expecting : followed by value for dictionary key"
  | missingComma => "Syntax Error: Expecting , to separate dictionary items"
  | strayColon => "Syntax Error: No preceding ? to match with :"
  | unmatchedQuestion => "Syntax Error: No : to match with ?"
  | notAssignable => "Syntax Error: Can only assign to a variable, a member or an element"
  | noLowerBound => "Syntax Error: Cannot assign to a slice with no lower bound"
  | nulCharacter => "Syntax Error: Strings may not contain NUL characters"
  | stated message => message

end Fault

-- What a caller can set a limit to.
inductive Resource where
  | tokens
  | nesting
  | records
  | operators
deriving DecidableEq, Repr

namespace Resource

def all : List Resource :=
  [tokens, nesting, records, operators]

def name : Resource → String
  | tokens => "token count"
  | nesting => "nesting depth"
  | records => "bytecode length"
  | operators => "operator stack depth"

def overflowMessage (resource : Resource) (limit : Nat) : String :=
  "Overflow Error: " ++ resource.name ++ " exceeds the limit of " ++ toString limit

end Resource

-- Why a text has no tokens.
inductive LexCause where
  | fault (fault : Fault)
  | overflow (resource : Resource) (limit : Nat)
  | outOfMemory
deriving DecidableEq, Repr

-- A failure of the tokenizer, at a byte offset into the text.
structure LexError where
  offset : Nat
  cause : LexCause
deriving DecidableEq, Repr

namespace LexError

def message (e : LexError) : String :=
  match e.cause with
  | .fault fault => fault.message
  | .overflow resource limit => resource.overflowMessage limit
  | .outOfMemory => "Out of memory while tokenizing"

-- The same failure seen from a text that holds this one `shift` bytes in.
def rebase (e : LexError) (shift : Nat) : LexError :=
  { e with offset := e.offset + shift }

end LexError

end FormulaCode
