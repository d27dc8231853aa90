import FormulaCode.Code.Balance
import FormulaCode.Code.Listing
import FormulaCode.Code.Statistics
import FormulaCode.Compile.Basic
import FormulaCode.Token.Dump

namespace FormulaCode.Cli

-- What a run of the command line prints, and whether it went well.
structure Outcome where
  stdout : String := ""
  stderr : String := ""
  success : Bool := true
deriving DecidableEq, Repr

namespace Outcome

def print (text : String) : Outcome :=
  { stdout := text }

def failure (text : String) : Outcome :=
  { stderr := text, success := false }

def append (first second : Outcome) : Outcome :=
  ⟨first.stdout ++ second.stdout, first.stderr ++ second.stderr,
    first.success && second.success⟩

instance : Append Outcome := ⟨append⟩

def exitCode (outcome : Outcome) : Nat :=
  if outcome.success then 0 else 1

end Outcome

-- Why a file cannot be read.
inductive ReadError where
  | notFound
  | isDirectory
  | notText
  | other (message : String)
deriving DecidableEq, Repr

def ReadError.message : ReadError → String
  | notFound => "No such file or directory (os error 2)"
  | isDirectory => "Is a directory (os error 21)"
  | notText => "stream did not contain valid UTF-8"
  | other message => message

-- Arguments taken apart into flags and the input.
structure Arguments where
  flags : List String
  input : Option String
deriving DecidableEq, Repr

-- What follows `--` is the input, so that it may begin with a minus. Without it the input is the
-- first argument that does not begin with one.
def Arguments.parse (args : List String) : Arguments :=
  if args.contains "--" then
    ⟨args.takeWhile (· ≠ "--"), (args.dropWhile (· ≠ "--"))[1]?⟩
  else ⟨args, args.find? fun arg => arg.toList.head? ≠ some '-'⟩

def Arguments.has (arguments : Arguments) (flag : String) : Bool :=
  arguments.flags.contains flag

def Arguments.options (arguments : Arguments) : Options where
  allowDollar := arguments.has "--dollar"
  allowAssignment := arguments.has "--assign"
  allowCommaOperator := arguments.has "--comma"

def usage : String :=
"PPLEXPR - expression tokenizer and bytecode compiler

Usage:
  pplexpr '<expr>'               Compile and disassemble an expression
  pplexpr --file <path>          Compile every non-blank line of a file
  pplexpr --tokens '<expr>'      Show tokens only
  pplexpr [flags] -- '<expr>'    Input after --, even if it starts with -

Options:
  --dollar                       Allow $ column references
  --assign                       Allow assignment, ++ and --
  --comma                        Treat a top-level comma as the sequence operator
  --compact                      One line per instruction, no stack comments
  --stats                        Print instruction statistics
  --check                        Verify stack balance of the compiled code
  --pretty, --no-color           Token dump formatting
  --states                       With --tokens, print one state letter per byte
  --help, -h                     Show this help
"

def rule : String :=
  "════════════════════════════════════════\n"

-- The listing of a formula under a heading that says where it stands.
def headedListing (formula : CompiledFormula) : String :=
  rule ++ " " ++ formula.file ++ ":" ++ toString formula.line ++ "  " ++
    String.ofList (trimEnd formula.source.toList) ++ "\n" ++
    " " ++ toString formula.code.walk.length ++ " instructions, " ++
    toString formula.code.size ++ " records\n" ++ rule ++ formula.code.listing ++ "\n"

def showTokens (arguments : Arguments) (text : String) : Outcome :=
  let options := arguments.options
  match tokenize (options.setup scanNumber) (some options.limits.maxTokens) text.toList with
  | .error e => .failure ("Lexer error: " ++ e.message ++ "\n")
  | .ok tokenized =>
      let style : DumpStyle := ⟨!arguments.has "--no-color", arguments.has "--pretty"⟩
      .print (dumpTokens style text.toList tokenized.tokens) ++
        (if arguments.has "--states" then
          .print (text ++ "\n" ++ stateString text.toList tokenized.tokens ++ "\n")
        else {})

def showBalance (code : Code) : Outcome :=
  match code.maxDepth with
  | .ok depth => .print ("stack check ok, max depth " ++ toString depth ++ "\n")
  | .error e => .failure (e.message ++ "\n")

-- What is left of a text behind the formula at its start.
def showRest (text : String) (consumed : Nat) : Outcome :=
  let (_, rest) := splitAtByte consumed text.toList
  if rest.isEmpty then {}
  else .print ("stopped after " ++ toString consumed ++ " bytes; left over: " ++
    String.ofList (quote rest) ++ "\n")

def showFormula (arguments : Arguments) (text : String) (line : Nat) (file : String) : Outcome :=
  match compile scanNumber arguments.options text line line file with
  | .error e => .failure (file ++ ":" ++ toString line ++ ": compile error\n" ++ e.render text ++ "\n")
  | .ok (formula, consumed) =>
      .print (if arguments.has "--compact" then formula.code.compactListing
        else headedListing formula) ++
        showRest text consumed ++
        (if arguments.has "--stats" then
          .print (formula.code.statistics (byteLength formula.source.toList))
        else {}) ++
        (if arguments.has "--check" then showBalance formula.code else {})

def showText (arguments : Arguments) (text : String) (line : Nat) (file : String) : Outcome :=
  if arguments.has "--tokens" then showTokens arguments text
  else showFormula arguments text line file

-- The parts of a text between its line feeds.
def splitLines : List Char → List (List Char)
  | [] => [[]]
  | c :: rest =>
      if c = '\n' then [] :: splitLines rest
      else match splitLines rest with
        | [] => [[c]]
        | line :: lines => (c :: line) :: lines

def dropReturn (line : List Char) : List Char :=
  if line.getLast? = some '\r' then line.dropLast else line

-- The lines of a file. A carriage return before a line feed belongs to the line's end, and the
-- last line needs no end.
def fileLines (text : List Char) : List (List Char) :=
  let parts := splitLines text
  parts.dropLast.map dropReturn ++ parts.getLast?.toList.filter (!·.isEmpty)

def showFile (arguments : Arguments) (path : String) (text : String) : Outcome :=
  let lines := (fileLines text.toList).zipIdx 1
  (lines.filter fun (line, _) => !line.all isBlank).foldl
    (fun outcome (line, number) =>
      outcome ++ showText arguments (String.ofList line) number path) {}

-- A run of the command line, given how files are read.
def run (read : String → Except ReadError String) (args : List String) : Outcome :=
  let arguments := Arguments.parse args
  if arguments.has "--help" || arguments.has "-h" then .print usage
  else match arguments.input with
    | none => .print usage
    | some input =>
        if arguments.has "--file" then
          match read input with
          | .ok text => showFile arguments input text
          | .error e => .failure ("Failed to read '" ++ input ++ "': " ++ e.message ++ "\n")
        else showText arguments input 1 "<command line>"

end FormulaCode.Cli
