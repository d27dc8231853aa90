import FormulaCode.Proofs.Compile.Invariant
import FormulaCode.Proofs.Compile.Origin
import FormulaCode.Proofs.Token.Cut
import FormulaCode.Proofs.Token.Tiling

namespace FormulaCode

-- A formula is made from its tokens, its limits and its source, and from nothing else of the text
-- and of the options.
theorem compile_of_tokenize {scanner : NumberScanner} {options other : Options}
    (hlimits : other.limits = options.limits) {text cut : String} {tokenized : Tokenized}
    (htokens : tokenize (options.setup scanner) (some options.limits.maxTokens) text.toList =
      .ok tokenized)
    (hagain : tokenize (other.setup scanner) (some options.limits.maxTokens) cut.toList =
      .ok tokenized)
    (hsource : (splitAtByte tokenized.stop cut.toList).1 =
      (splitAtByte tokenized.stop text.toList).1)
    (line sourceId : Nat) (file : String) :
    compile scanner other cut line sourceId file =
      compile scanner options text line sourceId file := by
  simp only [compile, hlimits, htokens, hagain, bind, Except.bind, hsource]

section Source

variable {options : Options} {text : String} {line sourceId : Nat} {file : String}
  {formula : CompiledFormula} {stop : Nat}

theorem source_of_compile {scanner : NumberScanner}
    (h : compile scanner options text line sourceId file = .ok (formula, stop)) :
    formula.source = String.ofList (splitAtByte stop text.toList).1 := by
  simp only [compile, bind, Except.bind] at h
  split at h
  · split at h
    · cases h
    · split at h
      · cases h
      · cases h
        rfl
  · cases h

-- With more permissions a formula that could be compiled before is compiled as before. Only a comma
-- or an equals sign behind it may become part of it.
theorem compile_grant {wide : Options} (hlimits : wide.limits = options.limits)
    (hle : options.permissions ≤ wide.permissions)
    (h : compile scanNumber options text line sourceId file = .ok (formula, stop))
    (hcloses : Closes (splitAtByte stop text.toList).2) :
    compile scanNumber wide text line sourceId file = .ok (formula, stop) := by
  obtain ⟨tokenized, code, htokens, -, -, rfl⟩ := compile_eq_ok h
  have hscanner : ∀ more, (options.setup scanNumber).scanner ('=' :: more) = none := by
    intro more
    change scanNumber ('=' :: more) = none
    exact scanNumber_eq_none (by decide) (by decide)
  have hends : ∀ before rest, text.toList = before ++ rest →
      tokenized.stop = byteLength before → Closes rest := by
    intro before rest htext hstop
    rw [htext, hstop, splitAtByte_left] at hcloses
    exact hcloses
  have hsetup : wide.setup scanNumber =
      { options.setup scanNumber with permissions := wide.permissions } := by
    simp only [Options.setup, hlimits]
  have hgrant : tokenize (wide.setup scanNumber) (some options.limits.maxTokens) text.toList =
      .ok tokenized := by
    rw [hsetup]
    exact tokenize_grant hle hscanner htokens hends
  rw [compile_of_tokenize hlimits htokens hgrant rfl]
  exact h

theorem compile_grant_comparison :
    ({} : Options).permissions ≤ (⟨true, true, true, {}⟩ : Options).permissions ∧ ∃ formula,
      compile scanNumber {} "a**b<=c[1]%2) = 3" 1 0 "" = .ok (formula, 12) ∧
      Closes (splitAtByte 12 "a**b<=c[1]%2) = 3".toList).2 ∧
      compile scanNumber ⟨true, true, true, {}⟩ "a**b<=c[1]%2) = 3" 1 0 "" = .ok (formula, 12) := by
  have hlimits : (⟨true, true, true, {}⟩ : Options).limits = ({} : Options).limits := rfl
  have hle : ({} : Options).permissions ≤ (⟨true, true, true, {}⟩ : Options).permissions := by
    refine ⟨?_, ?_, ?_, rfl⟩ <;> rintro ⟨⟩
  have hcloses : Closes (splitAtByte 12 "a**b<=c[1]%2) = 3".toList).2 := by
    have hrest : (splitAtByte 12 "a**b<=c[1]%2) = 3".toList).2.head? = some ')' := by
      decide +kernel
    intro c hc
    rw [hrest] at hc
    cases hc
    decide
  have hstop : (compile scanNumber {} "a**b<=c[1]%2) = 3" 1 0 "").toOption.map (·.2) = some 12 := by
    decide +kernel
  obtain ⟨⟨formula, _⟩, h, rfl⟩ := exists_ok_of_map hstop
  exact ⟨hle, formula, h, hcloses, compile_grant hlimits hle h hcloses⟩

-- The source of a formula is what was read of the text, and it is compiled into the same formula:
-- what stands behind it in the text has no part in it.
theorem compile_source
    (h : compile scanNumber options text line sourceId file = .ok (formula, stop)) :
    (∃ rest, text = formula.source ++ rest) ∧ byteLength formula.source.toList = stop ∧
      compile scanNumber options formula.source line sourceId file = .ok (formula, stop) := by
  obtain ⟨tokenized, code, htokens, -, -, rfl⟩ := compile_eq_ok h
  obtain ⟨cut, left, htext, hstop, hagain⟩ := tokenize_cut rfl htokens
  have hsource : formula.source = String.ofList cut := by
    rw [source_of_compile h, htext, hstop, splitAtByte_left]
  rw [hsource, String.toList_ofList]
  refine ⟨⟨String.ofList left, ?_⟩, hstop.symm, ?_⟩
  · rw [← String.ofList_append, ← htext, String.ofList_toList]
  · rw [compile_of_tokenize rfl htokens]
    · exact h
    · rw [String.toList_ofList]
      exact hagain
    · have hall := splitAtByte_left cut []
      rw [List.append_nil] at hall
      rw [String.toList_ofList, hstop, hall, htext, splitAtByte_left]

theorem compile_source_remainder : ∃ formula,
    compile scanNumber {} "f('')<<2e1 =3" 1 0 "" = .ok (formula, 11) ∧
      (∃ rest, "f('')<<2e1 =3" = formula.source ++ rest) ∧
      byteLength formula.source.toList = 11 ∧
      compile scanNumber {} formula.source 1 0 "" = .ok (formula, 11) := by
  have hstop : (compile scanNumber {} "f('')<<2e1 =3" 1 0 "").toOption.map (·.2) = some 11 := by
    decide +kernel
  obtain ⟨⟨formula, _⟩, h, rfl⟩ := exists_ok_of_map hstop
  exact ⟨formula, h, compile_source h⟩

end Source

end FormulaCode
