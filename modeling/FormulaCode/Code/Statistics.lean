import FormulaCode.Code.Basic
import FormulaCode.Decimal.Fixed
import FormulaCode.Text.Column

namespace FormulaCode

namespace Code

def mnemonics (code : Code) : List String :=
  code.walk.map fun (_, instr) => instr.op.opcode.mnemonic

-- How often each instruction occurs, the most frequent first and equals by name.
def frequencies (code : Code) : List (String × Nat) :=
  let names := code.mnemonics
  (names.eraseDups.map fun name => (name, names.count name)).mergeSort fun (a, m) (b, n) =>
    n < m || (m = n && a ≤ b)

def frequencyLine (total : Nat) (name : String) (count : Nat) : String :=
  "  " ++ padRight 14 name ++ " " ++ padLeft 4 (toString count) ++ " (" ++
    padLeft 5 (percentage count (max total 1)).oneDecimal ++ "%)\n"

-- The sizes of a formula and of its code, and the ten most frequent instructions.
def statistics (code : Code) (sourceBytes : Nat) : String :=
  let total := code.walk.length
  "=== BYTECODE STATISTICS ===\n\n" ++
    "Source bytes:     " ++ toString sourceBytes ++ "\n" ++
    "Instructions:     " ++ toString total ++ "\n" ++
    "Text records:     " ++ toString (code.size - total) ++ "\n" ++
    "Total records:    " ++ toString code.size ++ "\n\n" ++
    "Op frequency:\n" ++
    String.join ((code.frequencies.take 10).map fun (name, count) =>
      frequencyLine total name count)

end Code

end FormulaCode
