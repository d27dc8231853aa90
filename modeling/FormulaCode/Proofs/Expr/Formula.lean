import FormulaCode.Proofs.Compile.Invariant
import FormulaCode.Proofs.Expr.Compile
import FormulaCode.Proofs.Expr.Reading

namespace FormulaCode

namespace Expr

theorem assemble_formulaTokens {limits : Limits} {t : Expr} (hfits : t.Fits)
    (hrecords : t.code.size ≤ limits.maxRecords) (hdepth : t.depth ≤ limits.maxStackDepth) :
    assemble scanNumber limits t.formulaTokens = .ok t.code := by
  have hsize : (t.records 0 0).length + 1 ≤ limits.maxRecords := by
    simpa [code, Code.size, single] using hrecords
  have hguards : Guards [] t.level := by
    intro p rest hstack
    cases hstack
  have hcompiles : Compiles limits t := compiles hfits
  obtain ⟨c, hrun, hc⟩ := hcompiles [] [] none 0 hguards (by rw [List.length_nil]; omega)
    (by rw [List.length_nil]; omega)
  have hfinish : Compiler.step scanNumber limits c ⟨t.width, [], .finish 0⟩ = _ :=
    Compiler.step_finish hc hsize
  have hall : Compiler.run limits .start t.formulaTokens = _ :=
    (Compiler.run_append hrun).trans (Compiler.run_cons hfinish)
  rw [Compiler.run_nil] at hall
  have hfold : t.formulaTokens.foldlM (Compiler.step scanNumber limits) .start = _ := hall
  rw [assemble, hfold]
  rfl

-- The code of a tree is whole: it has room where nothing is limited.
theorem code_complete {t : Expr} (hfits : t.Fits) :
    t.code.Complete ∧ ∃ shapes, t.code.Shaped shapes := by
  have htokens : tokenize ⟨⟨false, true, true, false⟩, scanNumber, none⟩ none t.text =
      .ok ⟨t.formulaTokens, 0, t.width⟩ :=
    tokenize_text rfl rfl hfits (fun _ => rfl) (fun _ => rfl) (by simp) (by simp)
  have hcode : assemble scanNumber ⟨0, t.code.size, t.depth, 0⟩ t.formulaTokens = .ok t.code :=
    assemble_formulaTokens hfits (Nat.le_refl _) (Nat.le_refl _)
  exact complete_of_assemble htokens rfl hcode

-- What a tree needs of the options under which it is compiled.
structure Allowed (t : Expr) (options : Options) : Prop where
  assignment : t.assigns = true → options.allowAssignment = true
  comma : t.level = 18 → options.allowCommaOperator = true
  tokens : t.formulaTokens.length ≤ options.limits.maxTokens
  records : t.code.size ≤ options.limits.maxRecords
  depth : t.depth ≤ options.limits.maxStackDepth
  nesting : t.nesting ≤ options.limits.maxNesting

theorem Allowed.tokenize_eq {t : Expr} {options : Options} (h : t.Allowed options)
    (hfits : t.Fits) :
    tokenize (options.setup scanNumber) (some options.limits.maxTokens)
      (String.ofList t.text).toList = .ok ⟨t.formulaTokens, 0, t.width⟩ := by
  rw [String.toList_ofList]
  exact tokenize_text rfl rfl hfits h.assignment h.comma
    (by intro limit hlimit; cases hlimit; exact h.nesting)
    (by intro limit hlimit; cases hlimit; exact h.tokens)

theorem Allowed.assemble_eq {t : Expr} {options : Options} (h : t.Allowed options)
    (hfits : t.Fits) : assemble scanNumber options.limits t.formulaTokens = .ok t.code :=
  assemble_formulaTokens hfits h.records h.depth

-- A name of one letter.
def letter (c : Char) (hletter : startsWithLetter [c] = true) (hident : [c].all isIdentChar = true)
    (hbinder : binderStem? [c] = none) : Name where
  chars := [c]
  letter := hletter
  ident := hident
  notKeyword := by simp [keywords]
  notBinder := hbinder
  notTextual := by simp [textFunctions]

-- The tree of `x [ i ] += a && b ? c , d : e ** - f`.
def mixed : Expr :=
  .assignElement ⟨['+', '='], .addAssign, by decide⟩
    (letter 'x' (by decide) (by decide) (by decide))
    (.name (letter 'i' (by decide) (by decide) (by decide)))
    (.ternary
      (.binary ⟨['&', '&'], .logicalAnd, by decide⟩
        (.name (letter 'a' (by decide) (by decide) (by decide)))
        (.name (letter 'b' (by decide) (by decide) (by decide))))
      (.sequence (.name (letter 'c' (by decide) (by decide) (by decide)))
        (.name (letter 'd' (by decide) (by decide) (by decide))))
      (.binary ⟨['*', '*'], .power, by decide⟩
        (.name (letter 'e' (by decide) (by decide) (by decide)))
        (.unary ⟨['-'], .negate, by decide⟩
          (.name (letter 'f' (by decide) (by decide) (by decide))))))

example : String.ofList mixed.text = "x [ i ] += a && b ? c , d : e ** - f" := by decide

theorem mixed_fits : mixed.Fits := by
  simp [mixed, Fits, level, Operator.precedence]

theorem mixed_allowed : mixed.Allowed { allowAssignment := true } where
  assignment := fun _ => rfl
  comma := by simp [mixed, level]
  tokens := by decide
  records := by decide +kernel
  depth := by decide
  nesting := by decide

end Expr

end FormulaCode
