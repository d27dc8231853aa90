import FormulaCode.Proofs.Token.Nesting
import FormulaCode.Proofs.Token.Parentheses
import FormulaCode.Proofs.Token.Shift

namespace FormulaCode

-- The same level in brackets.
def Level.nested (level : Level) : Level :=
  { level with top := false }

-- A run outside brackets that leaves nothing of its text, and the same run in brackets, which
-- has no token for its end.
def Scan.LosesEnd (first second : Scan LevelEnd) : Prop :=
  ∀ ending, first.outcome = .ok ending → ending.left = 0 → ∃ tokens,
    first.tokens = tokens ++ [⟨ending.stop, [], .finish ending.items⟩] ∧
      second = ⟨tokens, .ok ending⟩

theorem Scan.LosesEnd.bind (run : Scan α) {next later : α → Scan LevelEnd}
    (h : ∀ a, (next a).LosesEnd (later a)) : (run >>= next).LosesEnd (run >>= later) := by
  intro ending hending hleft
  obtain ⟨a, ha, hnext⟩ := Scan.exists_of_bind hending
  obtain ⟨tokens, htokens, hlater⟩ := h a ending hnext hleft
  refine ⟨run.tokens ++ tokens, ?_, ?_⟩
  · rw [Scan.bind_of_ok ha, Scan.after, htokens, List.append_assoc]
  · rw [Scan.bind_of_ok ha, hlater]
    rfl

section Levels

variable {setup : Setup} {level : Level} (htop : level.top = true)

include htop

end Levels

section Enclose

variable {setup : Setup} {depth wide : Nat} (hscanner : setup.scanner = scanNumber)
  (hseparators : setup.permissions.separators = .sequence) (hdepth : setup.maxDepth = some depth)
  (hwide : depth + 1 ≤ wide)

include hscanner hseparators hdepth hwide

end Enclose

end FormulaCode
