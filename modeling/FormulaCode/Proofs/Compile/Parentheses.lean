import FormulaCode.Proofs.Compile.Relocate
import FormulaCode.Proofs.Compile.Source
import FormulaCode.Proofs.Compile.Usage
import FormulaCode.Proofs.Token.Enclose

namespace FormulaCode

namespace Reading

variable {scanner : NumberScanner} {r mid last : Reading} {token : Token}

theorem Next.state_ne_finish (h : Next scanner r token mid) : r.state ≠ .finish := by
  have hsuccessor : ∀ {state kind : TokenKind}, kind ∈ state.successors → state ≠ .finish := by
    rintro _ kind hmem rfl
    cases hmem
  cases h with
  | plain successor | separate successor | question successor | colon successor =>
      exact hsuccessor successor
  | boundName => simp
  | @opening state bound frames token group successor form =>
      cases bound with
      | true => simp [show state = .name from successor.1]
      | false => exact hsuccessor successor
  | closing _ ends | sliceMark ends => exact Compiler.ne_finish_of_ends ends
  | finish ends => exact hsuccessor ends

theorem Next.kind_ne_finish (h : Next scanner r token mid) (hmid : mid.state ≠ .finish) :
    token.kind ≠ .finish := by
  cases h with
  | plain successor plain => exact plain.kind_ne_finish
  | boundName form | question _ form | colon _ form => simp [Token.kind, form, Form.kind]
  | separate successor form => rcases form with form | form <;> simp [Token.kind, form, Form.kind]
  | opening group successor form => cases group <;> simp [Token.kind, form, Form.kind, Group.kind]
  | closing found ends form =>
      cases found <;> simp [Token.kind, form, Form.kind, Closing.group, Group.kind]
  | sliceMark ends form => simp [Token.kind, form, Form.kind]
  | finish => exact absurd rfl hmid

-- Nothing follows the token of the end.
theorem Run.kind_ne_finish {tokens : List Token} (h : Run scanner r (tokens ++ [token]) last) :
    ∀ other ∈ tokens, other.kind ≠ .finish := by
  induction tokens generalizing r with
  | nil => simp
  | cons first tokens ih =>
      cases h with
      | @cons _ mid _ _ _ hnext hrest =>
          have hmid : mid.state ≠ .finish := by
            cases tokens <;> cases hrest with
            | cons hnext' _ => exact hnext'.state_ne_finish
          exact List.forall_mem_cons.mpr ⟨hnext.kind_ne_finish hmid, ih hrest⟩

end Reading

namespace Compiler

variable {limits wide : Limits}

end Compiler

section Enclose

variable {options : Options} {text : String} {line sourceId : Nat} {file : String}
  {formula : CompiledFormula}

end Enclose

end FormulaCode
