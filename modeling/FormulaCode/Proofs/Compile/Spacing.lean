import FormulaCode.Proofs.Compile.Relocate
import FormulaCode.Proofs.Compile.Source
import FormulaCode.Proofs.Compile.Usage
import FormulaCode.Proofs.Token.Spacing

namespace FormulaCode

-- Code with the offsets of the tokens that its instructions are made for: when these tokens are
-- moved, the instructions come from the places that the offsets are moved to.
structure Originates (scanner : NumberScanner) (limits : Limits) (tokens : List Token) (code : Code)
    (origins : Nat → Nat) : Prop where
  made : assemble scanner limits tokens = .ok code
  moved : ∀ place, assemble scanner limits (tokens.map (Token.relocate place)) =
    .ok (code.relocate fun index _ => .ofNat (place (origins index)))

section Origins

variable {scanner : NumberScanner} {limits : Limits} {tokens : List Token} {code : Code}
  {origins : Nat → Nat}

namespace Originates

-- Tokens that are left where they are make the code that they made.
theorem relocate_thread (h : Originates scanner limits tokens code origins) {place : Nat → Nat}
    (hplace : ∀ token ∈ tokens, place token.start = token.start) :
    (code.thread.1.relocate fun index _ => .ofNat (place (origins index))) = code.thread.1 := by
  have hself : tokens.map (Token.relocate place) = tokens := by
    refine (List.map_congr_left fun token hmem => ?_).trans (List.map_id tokens)
    rw [Token.relocate, hplace token hmem, id_eq]
  have hcode := h.moved place
  rw [hself, h.made, Except.ok.injEq] at hcode
  rw [← Code.thread_relocate, ← hcode]

variable (h : Originates scanner limits tokens code origins) {index : Nat} {instr : Instr}
  (hinstr : code.thread.1.instr? index = some instr)

include h hinstr

theorem pos_eq : instr.pos = .ofNat (origins index) :=
  Code.pos_of_relocate (h.relocate_thread fun _ _ => id_eq _) hinstr

-- If no token begins at the origin of an instruction, the origin may be moved and no token.
theorem isTokenStart : IsTokenStart tokens (origins index) := by
  by_contra hstart
  let place (pos : Nat) : Nat := if pos = origins index then pos + 1 else pos
  have hplace : ∀ token ∈ tokens, place token.start = token.start :=
    fun token hmem => if_neg fun heq => hstart ⟨token, hmem, heq⟩
  have hmoved : place (origins index) = origins index + 1 := if_pos rfl
  have hapart := Code.pos_of_relocate (h.relocate_thread hplace) hinstr
  rw [hmoved, UInt32.ofNat_add, ← h.pos_eq hinstr] at hapart
  exact absurd hapart (by simp)

variable {stop : Nat} (hstarts : ∀ token ∈ tokens, token.start ≤ stop)

include hstarts

end Originates

end Origins

section Spacing

variable {options : Options} {text : String} {line sourceId : Nat} {file : String}
  {formula : CompiledFormula} {stop : Nat}

end Spacing

end FormulaCode
