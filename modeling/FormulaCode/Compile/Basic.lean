import FormulaCode.Code.Threading
import FormulaCode.Compile.Pending
import FormulaCode.Formula
import FormulaCode.Options
import FormulaCode.Token.Lexer

namespace FormulaCode

-- The operators and brackets that are open, the innermost first, and the code so far.
structure Compiler where
  stack : List Entry
  output : Assembly
deriving DecidableEq, Repr

namespace Compiler

def start : Compiler :=
  ⟨[], .empty⟩

section Steps

variable (limits : Limits)

def push (c : Compiler) (entry : Entry) : Except CompileError Compiler :=
  if limits.maxStackDepth ≤ c.stack.length then
    .error ⟨entry.pos, .overflow .operators limits.maxStackDepth⟩
  else .ok { c with stack := entry :: c.stack }

def emit (c : Compiler) (op : Op) (pos : Nat) : Except CompileError Compiler := do
  return { c with output := ← c.output.emit limits.maxRecords op pos }

def emitText (c : Compiler) (op : Op) (text : List Char) (pos : Nat) :
    Except CompileError Compiler := do
  return { c with output := ← c.output.emitText limits.maxRecords op text pos }

def pointerize (c : Compiler) (pos : Nat) : Except CompileError Compiler := do
  return { c with output := ← c.output.pointerize pos }

def reduce (c : Compiler) (yields : Pending → Bool) : Except CompileError Compiler := do
  let (stack, output) ← reduceWhile limits.maxRecords yields c.stack c.output
  return ⟨stack, output⟩

-- Applies every operator down to the nearest barrier.
def flush (c : Compiler) : Except CompileError Compiler :=
  c.reduce limits fun _ => true

-- The branch of `&&` and `||` keeps the left operand when it is made. A comma between items
-- leaves nothing behind, as the bracket counts them.
def binary (c : Compiler) (op : Operator) (pos : Nat) : Except CompileError Compiler := do
  let c ← c.reduce limits (Pending.yields op)
  let branch := c.output.code.size
  match op with
  | .collect => return c
  | .logicalAnd =>
      let c ← c.emit limits (.branchIfFalse ⟨none, false⟩) pos
      c.push limits (.pending (.logical op pos branch))
  | .logicalOr =>
      let c ← c.emit limits (.branchIfTrue ⟨none, false⟩) pos
      c.push limits (.pending (.logical op pos branch))
  | op => c.push limits (.pending (.operator op pos))

def question (c : Compiler) (pos : Nat) : Except CompileError Compiler := do
  let c ← c.reduce limits (Pending.yields .question)
  let branch := c.output.code.size
  let c ← c.emit limits (.branchIfFalse ⟨none, true⟩) pos
  c.push limits (.barrier (.question pos branch))

-- The branch of the `?` leads to the else part, and a jump over the else part ends the first.
def colon (c : Compiler) (pos : Nat) : Except CompileError Compiler := do
  let c ← c.flush limits
  match c.stack with
  | .barrier (.question _ branch) :: rest =>
      let goto := c.output.code.size
      let output ← c.output.emit limits.maxRecords (.goto none) pos
      push limits ⟨rest, ← output.patch branch⟩ (.pending (.colon pos goto))
  | _ => .error ⟨pos, .breach .colonAlone⟩

-- The stack below the open bracket of a group, which must be the innermost barrier.
def belowBracket (c : Compiler) (group : Group) (token : Token) :
    Except CompileError (List Entry) :=
  match c.stack with
  | .barrier (.question pos _) :: _ => .error ⟨pos, .fault .unmatchedQuestion⟩
  | .barrier (.bracket opened _) :: rest =>
      if opened = group then .ok rest
      else .error ⟨token.start, .breach (.bracketAlone (String.ofList token.text))⟩
  | _ => .error ⟨token.start, .breach (.bracketAlone (String.ofList token.text))⟩

def openGroup (c : Compiler) (group : Group) (pos : Nat) : Except CompileError Compiler := do
  let c ← match group with
    | .call | .subscript => c.reduce limits Pending.yieldsToAccess
    | _ => .ok c
  c.push limits (.barrier (.bracket group pos))

-- A list of substitutions takes the place of the operand that its `%` waits for.
def closeGroup (c : Compiler) (found : Closing) (token : Token) :
    Except CompileError Compiler := do
  let c ← c.flush limits
  let below ← c.belowBracket found.group token
  let c := { c with stack := below }
  let pos := token.start
  match found with
  | .subExpr => return c
  | .call items => c.emit limits (.call items) pos
  | .list items => c.emit limits (.makeList items) pos
  | .dict pairs => c.emit limits (.makeDict pairs) pos
  | .subscript shape => c.emit limits (.sliceValue shape) pos
  | .substArgs items => match below with
      | .pending (.operator .substitute _) :: rest =>
          emit limits { c with stack := rest } (.substitute items) pos
      | _ => .error ⟨pos, .breach .substitutionAlone⟩

def finish (c : Compiler) (pos : Nat) : Except CompileError Compiler := do
  let c ← c.flush limits
  match c.stack with
  | [] => c.emit limits .ret pos
  | .barrier (.question pos _) :: _ => .error ⟨pos, .fault .unmatchedQuestion⟩
  | entry :: _ => .error ⟨entry.pos, .breach .operatorsLeft⟩

end Steps

-- The value of a string token. The text of a string in code ends at its first zero, so the token
-- must not hold one.
def stringValue (token : Token) (verbatim : Bool) : Except CompileError (List Char) := do
  let value ← if verbatim then .ok token.text
    else match Literal.scan token.text with
      | .found literal => .ok literal.decode
      | _ => .error ⟨token.start, .breach .stringLost⟩
  if token.text.contains '\x00' then
    .error ⟨token.start + byteLength (token.text.takeWhile (· ≠ '\x00')), .fault .nulCharacter⟩
  else .ok value

def step (scanner : NumberScanner) (limits : Limits) (c : Compiler) (token : Token) :
    Except CompileError Compiler :=
  let pos := token.start
  match token.form with
  | .number => match scanner token.text with
      | some (value, _) => c.emit limits (.pushNumber value) pos
      | none => .error ⟨pos, .breach .numberLost⟩
  | .string verbatim => do c.emitText limits .pushString (← stringValue token verbatim) pos
  | .name => c.emitText limits .lookupValue token.text pos
  | .memberName => c.emitText limits .derefValue token.text pos
  | .dollarName => c.emitText limits .pushString token.text pos
  | .dot => c.reduce limits Pending.yieldsToAccess
  | .dollar => c.push limits (.pending (.dollar pos))
  | .unary op | .stepBefore op => do
      (← c.reduce limits (Pending.yieldsToUnary op)).push limits (.pending (.operator op pos))
  | .stepAfter op => do (← c.pointerize pos).emit limits (.incDec op) pos
  | .substitute => c.binary limits .substitute pos
  | .binary op => c.binary limits op pos
  | .ternary .question => c.question limits pos
  | .ternary .colon => c.colon limits pos
  | .ternary .pair => c.reduce limits (Pending.yields .collect)
  | .assign op => do
      let c ← c.reduce limits Pending.yieldsToAssignment
      (← c.pointerize pos).push limits (.pending (.assign op pos))
  | .opening group => c.openGroup limits group pos
  | .closing found => c.closeGroup limits found token
  | .sliceMark => do
      let c ← c.flush limits
      let _ ← c.belowBracket .subscript token
      return c
  | .finish _ => c.finish limits pos

end Compiler

def Options.setup (options : Options) (scanner : NumberScanner) : Setup where
  permissions := options.permissions
  scanner := scanner
  maxDepth := some options.limits.maxNesting

-- The code of a list of tokens, before its branches are threaded.
def assemble (scanner : NumberScanner) (limits : Limits) (tokens : List Token) :
    Except CompileError Code := do
  let c ← tokens.foldlM (Compiler.step scanner limits) Compiler.start
  return c.output.code

-- Compiles the formula at the start of a text, and tells how many bytes of it were read. Outside
-- brackets a formula ends before the first thing that cannot continue it.
def compile (scanner : NumberScanner) (options : Options) (text : String) (line sourceId : Nat)
    (file : String) : Except CompileError (CompiledFormula × Nat) := do
  let tokenized ← match
      tokenize (options.setup scanner) (some options.limits.maxTokens) text.toList with
    | .ok tokenized => .ok tokenized
    | .error e => .error e.toCompileError
  let code ← assemble scanner options.limits tokenized.tokens
  let (threaded, _) := code.thread
  match threaded.validate with
  | .error e => .error ⟨0, .breach (.malformed e)⟩
  | .ok () =>
      let source := String.ofList (splitAtByte tokenized.stop text.toList).1
      return (⟨source, line, sourceId, file, threaded⟩, tokenized.stop)

end FormulaCode
