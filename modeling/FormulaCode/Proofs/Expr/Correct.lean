import FormulaCode.Proofs.Compile.Limits
import FormulaCode.Proofs.Expr.Enclose
import FormulaCode.Proofs.Expr.Formula
import FormulaCode.Proofs.Expr.Run
import FormulaCode.Proofs.Token.Permissions

namespace FormulaCode

theorem eq_nil_of_byteLength_eq {before rest : List Char}
    (h : byteLength (before ++ rest) = byteLength before) : rest = [] := by
  cases rest with
  | nil => rfl
  | cons c more =>
      have hpos := c.utf8Size_pos
      rw [byteLength_append] at h
      simp only [byteLength] at h
      omega

namespace Expr

-- The same bounds, and room for a tree.
def roomFor (t : Expr) (limits : Limits) : Limits where
  maxTokens := max limits.maxTokens t.formulaTokens.length
  maxRecords := max limits.maxRecords t.code.size
  maxStackDepth := max limits.maxStackDepth t.depth
  maxNesting := max limits.maxNesting t.nesting

theorem le_roomFor (t : Expr) (limits : Limits) : limits ≤ t.roomFor limits :=
  ⟨Nat.le_max_left _ _, Nat.le_max_left _ _, Nat.le_max_left _ _, Nat.le_max_left _ _⟩

-- Whatever the options are, the text of a tree that is read to its end has the tokens of the tree:
-- they are found with all permissions and enough room, and neither changes a reading.
theorem tokens_of_tokenize {t : Expr} {options : Options} (hfits : t.Fits) {tokenized : Tokenized}
    (h : tokenize (options.setup scanNumber) (some options.limits.maxTokens) t.text =
      .ok tokenized) (hstop : tokenized.stop = t.width) : tokenized.tokens = t.formulaTokens := by
  have hle : (options.setup scanNumber).permissions ≤ ⟨options.allowDollar, true, true, false⟩ :=
    ⟨id, fun _ => rfl, fun _ => rfl, rfl⟩
  have hcloses : ∀ before rest, t.text = before ++ rest → tokenized.stop = byteLength before →
      Closes rest := by
    intro before rest htext hread
    have hrest : rest = [] := eq_nil_of_byteLength_eq (by rw [← htext, ← hread, hstop]; rfl)
    rw [hrest]
    intro c hc
    cases hc
  have hequals : ∀ more, scanNumber ('=' :: more) = none :=
    fun _ => scanNumber_eq_none (by decide) (by decide)
  have hgrant := tokenize_grant hle hequals h hcloses
  have hroom := t.le_roomFor options.limits
  have hwide := (tokenize_extends rfl hroom.2.2.2 hroom.1 t.text).eq_ok hgrant
  have htokens : tokenize
      ⟨⟨options.allowDollar, true, true, false⟩, scanNumber,
        some (t.roomFor options.limits).maxNesting⟩
      (some (t.roomFor options.limits).maxTokens) t.text = .ok ⟨t.formulaTokens, 0, t.width⟩ :=
    tokenize_text rfl rfl hfits (fun _ => rfl) (fun _ => rfl)
      (by intro limit hlimit; cases hlimit; exact Nat.le_max_right _ _)
      (by intro limit hlimit; cases hlimit; exact Nat.le_max_right _ _)
  have heq := hwide.symm.trans htokens
  rw [Except.ok.inj heq]

-- There is only one code that the text of a tree can be compiled to.
theorem code_of_compile {t : Expr} (hfits : t.Fits) {options : Options} {line sourceId : Nat}
    {file : String} {formula : CompiledFormula}
    (h : compile scanNumber options (String.ofList t.text) line sourceId file =
      .ok (formula, t.width)) : formula.code = t.code.thread.1 := by
  obtain ⟨tokenized, code, htokenized, hcode, hformula, hstop⟩ := compile_eq_ok h
  rw [String.toList_ofList] at htokenized
  rw [tokens_of_tokenize hfits htokenized hstop.symm] at hcode
  have hwide := (assemble_extends (t.le_roomFor options.limits) scanNumber _).eq_ok hcode
  have hown := assemble_formulaTokens hfits
    (show t.code.size ≤ (t.roomFor options.limits).maxRecords from Nat.le_max_right _ _)
    (show t.depth ≤ (t.roomFor options.limits).maxStackDepth from Nat.le_max_right _ _)
  rw [hformula, Except.ok.inj (hwide.symm.trans hown)]

-- Every name is false, and the names are kept as they are looked up, the last one first.
def tracing : Interpretation (List (List Char)) Bool where
  truth := id
  ofBool := id
  truth_ofBool := fun _ => rfl
  act
    | .makeBool, _, operands => pure (operands.any id)
    | _, text, _ => fun names => (false, text.toList ++ names)
  act_makeBool := by
    intro text value
    simp

-- Compiled code does what its formula says. The text of a tree is compiled, under any options that
-- let it be compiled as a whole, to code that returns the value of the tree and nothing else, in
-- the state in which the evaluation of the tree ends.
theorem compile_evaluates {σ ν : Type} (I : Interpretation σ ν) (t : Expr) {options : Options}
    {line sourceId : Nat} {file : String} {formula : CompiledFormula}
    (h : compile scanNumber options (String.ofList t.enclose.text) line sourceId file =
      .ok (formula, t.enclose.width)) (state : σ) :
    I.machine.Ends formula.code ⟨0, state, []⟩
      (some ((t.eval I state).2, [(t.eval I state).1])) := by
  rw [code_of_compile t.enclose_fits h, Machine.ends_thread]
  have hends := ends_code I t.enclose state
  rw [eval_enclose] at hends
  exact hends

-- The right side of `&&` and the first side of the ternary operator are left out.
theorem compile_evaluates_mixed : ∃ formula,
    compile scanNumber { allowAssignment := true } (String.ofList mixed.enclose.text) 1 0 "" =
        .ok (formula, mixed.enclose.width) ∧
      tracing.machine.Ends formula.code ⟨0, [], []⟩
        (some ([['f'], ['e'], ['a'], ['i'], ['x']], [false])) := by
  have hcompile := compile_of_assemble (mixed_allowed.tokenize_eq mixed_fits)
    (mixed_allowed.assemble_eq mixed_fits) (code_complete mixed_fits).1 1 0 ""
  rw [← enclose_eq_self mixed_fits] at hcompile
  exact ⟨_, hcompile, compile_evaluates tracing mixed hcompile []⟩

end Expr

end FormulaCode
