import FormulaCode.Code.Validate
import FormulaCode.Formula
import FormulaCode.Options
import FormulaCode.Wire.Code

namespace FormulaCode

-- Changes whenever an instruction is added, removed or renumbered.
def codeVersion : Nat := 2

-- Why bytes are no formula.
inductive DecodeError where
  | version (found : Nat)
  | malformed (error : Malformed)
  | wire (error : Wire.WireError)
deriving DecidableEq, Repr

def DecodeError.message : DecodeError → String
  | version found =>
      "bytecode version " ++ toString found ++ " is not supported (expected " ++
        toString codeVersion ++ ")"
  | malformed error => error.message
  | wire error => "postcard: " ++ error.message

namespace Wire

def writeFormula (formula : CompiledFormula) : List UInt8 :=
  writeText formula.source ++ writeVarint formula.line ++ writeVarint formula.sourceId ++
    writeText formula.file ++ writeCode formula.code

def readFormula : Reader CompiledFormula := do
  let source ← readText
  let line ← readVarint .word32
  let sourceId ← readVarint .word64
  let file ← readText
  let code ← readCode
  return ⟨source, line, sourceId, file, code⟩

def writeOptions (options : Options) : List UInt8 :=
  writeBool options.allowDollar ++ writeBool options.allowAssignment ++
    writeBool options.allowCommaOperator ++ writeVarint options.limits.maxTokens ++
    writeVarint options.limits.maxRecords ++ writeVarint options.limits.maxStackDepth ++
    writeVarint options.limits.maxNesting

def readOptions : Reader Options := do
  let allowDollar ← readBool
  let allowAssignment ← readBool
  let allowCommaOperator ← readBool
  let maxTokens ← readVarint .word64
  let maxRecords ← readVarint .word64
  let maxStackDepth ← readVarint .word64
  let maxNesting ← readVarint .word64
  return ⟨allowDollar, allowAssignment, allowCommaOperator,
    ⟨maxTokens, maxRecords, maxStackDepth, maxNesting⟩⟩

end Wire

-- The written form of a formula: the version, then its parts.
def CompiledFormula.toBytes (formula : CompiledFormula) : List UInt8 :=
  Wire.writeVarint codeVersion ++ Wire.writeFormula formula

-- Reads a formula off the front of some bytes. Everything is read before the version is looked
-- at, and the code must be valid.
def CompiledFormula.ofBytes (bytes : List UInt8) : Except DecodeError CompiledFormula :=
  let read : Wire.Reader (Nat × CompiledFormula) := do
    let version ← Wire.readVarint .word16
    return (version, ← Wire.readFormula)
  match read bytes with
  | .error e => .error (.wire e)
  | .ok ((version, formula), _) =>
      if version ≠ codeVersion then .error (.version version)
      else match formula.code.validate with
        | .error e => .error (.malformed e)
        | .ok () => .ok formula

def Options.toBytes (options : Options) : List UInt8 :=
  Wire.writeOptions options

def Options.ofBytes (bytes : List UInt8) : Except Wire.WireError Options :=
  match Wire.readOptions bytes with
  | .error e => .error e
  | .ok (options, _) => .ok options

end FormulaCode
