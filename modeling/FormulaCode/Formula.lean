import FormulaCode.Code.Basic

namespace FormulaCode

-- What an evaluator is given: the code of a formula, the text it was made from, and where that
-- text stands. The number tells the texts of a caller apart.
structure CompiledFormula where
  source : String
  line : Nat
  sourceId : Nat
  file : String
  code : Code
deriving DecidableEq, Repr

end FormulaCode
