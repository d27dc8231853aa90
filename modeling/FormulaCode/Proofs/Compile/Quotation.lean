import FormulaCode.Proofs.Compile.Faithful
import FormulaCode.Proofs.Compile.Parentheses
import FormulaCode.Proofs.Quotation

namespace FormulaCode

namespace Code

variable (text : List Char) (width : Nat)

variable {text}

end Code

section Assemble

variable {text : List Char} {l : Literal} (hscan : Literal.scan text = .found l)
  (scanner : NumberScanner) (limits : Limits)

include hscan

end Assemble

-- The formula in which a text is all there is.
section Compile

variable {text : List Char} {l : Literal} (hscan : Literal.scan text = .found l)
  (hwidth : l.width = text.length) (scanner : NumberScanner) {options : Options}
  (htokens : 2 ≤ options.limits.maxTokens) (line sourceId : Nat) (file : String)

include hscan hwidth htokens

end Compile

namespace Quotation

variable (q : Quotation) {text : List Char}

def raw : Quotation :=
  ⟨some 'r', '\'', false, rfl, Or.inr ⟨List.mem_cons_self, rfl⟩⟩

end Quotation

end FormulaCode
