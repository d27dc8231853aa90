import FormulaCode.Proofs.Compile.Invariant
import FormulaCode.Proofs.Compile.Origin
import FormulaCode.Proofs.Token.Frontier

namespace FormulaCode

theorem IsBoundary.zero (text : List Char) : IsBoundary text 0 :=
  ⟨[], text, rfl, rfl⟩

theorem IsBoundary.le {text : List Char} {offset : Nat} (h : IsBoundary text offset) :
    offset ≤ byteLength text := by
  obtain ⟨before, after, rfl, rfl⟩ := h
  rw [byteLength_append]
  omega

-- A place in a token is a place in the text.
theorem IsReported.isBoundary {setup : Setup} {maxTokens : Option Nat} {text : List Char}
    {tokenized : Tokenized} (h : tokenize setup maxTokens text = .ok tokenized) {offset : Nat}
    (hreported : IsReported tokenized.tokens offset) : IsBoundary text offset := by
  obtain ⟨left, inner, read, rest, htokens, rfl, -, hstop, htiles⟩ :=
    (tiled_rules setup).of_tokenize h
  rcases hreported with rfl | ⟨token, hmem, first, last, htext, rfl⟩
  · exact IsBoundary.zero _
  rw [htokens] at hmem
  rcases List.mem_append.mp hmem with hmem | hmem
  · obtain ⟨-, before, after, rfl, hstart⟩ := htiles.exists_source hmem
    refine ⟨before ++ first, last ++ (after ++ rest), by simp [htext], ?_⟩
    rw [byteLength_append, hstart]
    exact congrArg (· + byteLength first) (Nat.zero_add _).symm
  · -- The token of the end is empty.
    obtain rfl := List.mem_singleton.mp hmem
    obtain ⟨rfl, rfl⟩ := List.append_eq_nil_iff.mp htext.symm
    exact ⟨read, rest, rfl, (hstop.trans (Nat.zero_add _)).symm⟩

-- What a compilation that fails has failed at.
theorem compile_eq_error {scanner : NumberScanner} {options : Options} {text : String}
    {line sourceId : Nat} {file : String} {e : CompileError}
    (h : compile scanner options text line sourceId file = .error e) :
    (∃ found, tokenize (options.setup scanner) (some options.limits.maxTokens) text.toList =
        .error found ∧ e.offset = found.offset) ∨
      (∃ tokenized, tokenize (options.setup scanner) (some options.limits.maxTokens) text.toList =
        .ok tokenized ∧ assemble scanner options.limits tokenized.tokens = .error e) ∨
      e.offset = 0 := by
  simp only [compile, bind, Except.bind] at h
  split at h
  · rename_i tokenized htokens
    split at h
    · rename_i hcode
      cases h
      exact Or.inr (Or.inl ⟨tokenized, htokens, hcode⟩)
    · split at h
      · cases h
        exact Or.inr (Or.inr rfl)
      · cases h
  · rename_i found htokens
    cases h
    exact Or.inl ⟨found, htokens, rfl⟩

theorem isBoundary_of_compile {scanner : NumberScanner} {options : Options} {text : String}
    {line sourceId : Nat} {file : String} {e : CompileError}
    (h : compile scanner options text line sourceId file = .error e) :
    IsBoundary text.toList e.offset := by
  rcases compile_eq_error h with ⟨found, htokens, hoffset⟩ | ⟨tokenized, htokens, hcode⟩ | hzero
  · rw [hoffset]
    obtain ⟨tokens, -, hfrontier⟩ := frontier_of_tokenize htokens
    exact hfrontier.boundary
  · rcases isReported_of_assemble hcode with ⟨op, hcause⟩ | hreported
    · -- Only a branch is ever patched.
      have hdelivers := compile_delivers scanner options text line sourceId file
      rw [h] at hdelivers
      cases (hdelivers _ hcause).1
    · exact hreported.isBoundary htokens
  · rw [hzero]
    exact IsBoundary.zero _

-- A failure to read a text names the offset up to which it has been read, as the tokens show that
-- have been recorded then. Any failure names an offset between two characters of the text.
theorem failure_offset (setup : Setup) (maxTokens : Option Nat) (text : List Char) :
    (∀ e, tokenize setup maxTokens text = .error e →
      ∃ tokens, Lexer.readText setup maxTokens text #[] = .error e tokens ∧
        Frontier text tokens.toList e.offset) ∧
    ∀ scanner options formula line sourceId file e,
      compile scanner options formula line sourceId file = .error e →
        e.offset ≤ byteLength formula.toList ∧ IsBoundary formula.toList e.offset := by
  refine ⟨fun e h => frontier_of_tokenize h, ?_⟩
  intro scanner options formula line sourceId file e h
  have hboundary := isBoundary_of_compile h
  exact ⟨hboundary.le, hboundary⟩

-- An operator is missing four brackets deep, behind a character of two bytes.
def juxtaposed : String :=
  "f('é', [1, \x7bk: (2 3)\x7d])"

theorem failure_offset_juxtaposed :
    (∃ e tokens, tokenize ⟨{}, scanNumber, none⟩ none juxtaposed.toList = .error e ∧
      Lexer.readText ⟨{}, scanNumber, none⟩ none juxtaposed.toList #[] = .error e tokens ∧
      Frontier juxtaposed.toList tokens.toList e.offset ∧ lastStop 0 tokens.toList = 18) ∧
    ∃ e, compile scanNumber {} juxtaposed 1 0 "" = .error e ∧
      e.offset ≤ byteLength juxtaposed.toList ∧ IsBoundary juxtaposed.toList e.offset := by
  obtain ⟨hread, hcompile⟩ := failure_offset ⟨{}, scanNumber, none⟩ none juxtaposed.toList
  have htokens : (tokenize ⟨{}, scanNumber, none⟩ none juxtaposed.toList).isOk = false := by
    decide +kernel
  have hcode : (compile scanNumber {} juxtaposed 1 0 "").isOk = false := by
    decide +kernel
  have hlast :
      lastStop 0 ((scanText ⟨{}, scanNumber, none⟩ juxtaposed.toList).recorded none) = 18 := by
    decide +kernel
  obtain ⟨e, htokenize⟩ := exists_error htokens
  obtain ⟨tokens, hrecorded, hfrontier⟩ := hread e htokenize
  obtain ⟨found, hfound⟩ := exists_error hcode
  refine ⟨⟨e, tokens, htokenize, hrecorded, hfrontier, ?_⟩,
    found, hfound, hcompile _ _ _ _ _ _ _ hfound⟩
  rw [readText_eq, limit_of_tokenize htokenize] at hrecorded
  cases hrecorded
  exact hlast

end FormulaCode
