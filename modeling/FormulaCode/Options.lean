import FormulaCode.Code.Op
import FormulaCode.Token.Move

namespace FormulaCode

-- Bounds of a single compilation. Passing one is an error, and nothing is cut short silently.
structure Limits where
  maxTokens : Nat := 4096
  maxRecords : Nat := 16384
  maxStackDepth : Nat := 512
  maxNesting : Nat := 256
deriving DecidableEq, Repr

-- What a formula may hold where it stands: column references, assignments, and commas outside
-- brackets.
structure Options where
  allowDollar : Bool := false
  allowAssignment : Bool := false
  allowCommaOperator : Bool := false
  limits : Limits := {}
deriving DecidableEq, Repr

def Options.permissions (options : Options) : Permissions where
  dollar := options.allowDollar
  assignment := options.allowAssignment
  commaOperator := options.allowCommaOperator

def Permissions.text (permissions : Permissions) : String :=
  "LexFlags \x7b allow_dollar: " ++ boolText permissions.dollar ++
    ", allow_assignment: " ++ boolText permissions.assignment ++
    ", allow_comma_operator: " ++ boolText permissions.commaOperator ++
    ", dict: " ++ boolText permissions.dict ++ " \x7d"

end FormulaCode
