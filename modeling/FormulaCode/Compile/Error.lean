import FormulaCode.Code.Validate
import FormulaCode.Fault

namespace FormulaCode

-- The compiler's own rules. None of them is broken by a formula.
inductive Breach where
  | numberLost
  | stringLost
  | colonAlone
  | substitutionAlone
  | bracketAlone (mark : String)
  | operatorsLeft
  | lastOutOfRange
  | nothingToPatch (index : Nat)
  | notABranch (op : Op)
  | malformed (error : Malformed)
  -- A rule of the caller, in the caller's words.
  | stated (message : String)
deriving DecidableEq, Repr

def Breach.message : Breach → String
  | numberLost => "numeric literal no longer scans"
  | stringLost => "string literal no longer scans"
  | colonAlone => "Could not match : to a ?"
  | substitutionAlone => "Could not match string substitution ( ) to a %"
  | bracketAlone mark => "Could not match " ++ mark ++ " to an opening bracket"
  | operatorsLeft => "Unexpected junk left on the operator stack"
  | lastOutOfRange => "last instruction is out of range"
  | nothingToPatch index => "no instruction at " ++ toString index ++ " to patch"
  | notABranch op => op.text ++ " is not a branch"
  | malformed error => error.message
  | stated message => message

-- Why a formula has no code.
inductive CompileCause where
  | fault (fault : Fault)
  | overflow (resource : Resource) (limit : Nat)
  | outOfMemory
  | breach (breach : Breach)
deriving DecidableEq, Repr

-- A failure of the compiler, at a byte offset into the text.
structure CompileError where
  offset : Nat
  cause : CompileCause
deriving DecidableEq, Repr

namespace CompileError

def message (e : CompileError) : String :=
  match e.cause with
  | .fault fault => fault.message
  | .overflow resource limit => resource.overflowMessage limit
  | .outOfMemory => "Out of memory while compiling expression"
  | .breach breach => "Internal error: " ++ breach.message

-- The same failure seen from a text that holds this one `shift` bytes in.
def rebase (e : CompileError) (shift : Nat) : CompileError :=
  { e with offset := e.offset + shift }

-- The line of the text in which the failure lies, a caret below it, and the message. The caret
-- stands below the character that holds the offset, or behind the last one.
def render (e : CompileError) (source : String) : String :=
  let (before, after) := splitAtByte e.offset source.toList
  let lineBefore := (before.reverse.takeWhile (· ≠ '\n')).reverse
  let lineAfter := after.takeWhile (· ≠ '\n')
  "  " ++ String.ofList (lineBefore ++ lineAfter) ++ "\n" ++
    "  " ++ String.ofList (List.replicate lineBefore.length ' ') ++ "^\n" ++ e.message

end CompileError

def LexError.toCompileError (e : LexError) : CompileError where
  offset := e.offset
  cause := match e.cause with
    | .fault fault => .fault fault
    | .overflow resource limit => .overflow resource limit
    | .outOfMemory => .outOfMemory

end FormulaCode
