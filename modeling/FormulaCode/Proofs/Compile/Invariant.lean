import FormulaCode.Proofs.Code.Depth
import FormulaCode.Proofs.Compile.Steps
import FormulaCode.Proofs.Token.Levels

namespace FormulaCode

theorem Token.Plain.kind_ne_finish {scanner : NumberScanner} {token : Token}
    (h : token.Plain scanner) : token.kind ≠ .finish := by
  obtain ⟨start, text, form⟩ := token
  cases form with
  | opening | closing | sliceMark | ternary | finish => exact h.elim
  | _ => simp [Token.kind, Form.kind]

namespace Compiler

section Step

variable {scanner : NumberScanner} {limits : Limits} {frames : List Frame} {c : Compiler}
  {state : TokenKind} {token : Token}

theorem stringValue_delivers {verbatim : Bool}
    (h : verbatim = false → ∃ literal, Literal.scan token.text = .found literal) :
    Delivers scanner (fun _ => True) (stringValue token verbatim) := by
  cases verbatim with
  | true =>
      simp only [stringValue, if_true]
      split
      · exact delivers_fault
      · trivial
  | false =>
      obtain ⟨literal, hliteral⟩ := h rfl
      simp only [stringValue, hliteral, Bool.false_eq_true, if_false]
      split
      · exact delivers_fault
      · trivial

-- Tokens that stand for themselves.
theorem plain_delivers (hplain : token.Plain scanner) (hsuccessor : token.kind ∈ state.successors)
    (h : c.Coherent frames token.kind.needs) (htops : c.Tops state) :
    Delivers scanner (fun after => after.Coherent frames token.kind.holds ∧ after.Tops token.kind)
      (c.step scanner limits token) := by
  obtain ⟨start, text, form⟩ := token
  cases form with
  | number =>
      obtain ⟨hpos, value, after, hscan⟩ := hplain
      simp only [step]
      split
      · refine (emit_delivers 0 0 h rfl rfl rfl rfl rfl).mono ?_
        rintro later ⟨hlater, -⟩
        exact ⟨hlater, trivial⟩
      · rename_i hnone
        rintro _ ⟨⟩
        exact ⟨rfl, text ++ after, value, text.length, hscan, hpos, by simp, by simpa using hnone⟩
  | string verbatim =>
      refine (stringValue_delivers hplain).bind fun value _ => ?_
      refine (emitText_delivers 0 0 h rfl rfl rfl).mono ?_
      rintro later ⟨hlater, -⟩
      exact ⟨hlater, trivial⟩
  | name =>
      refine (emitText_delivers 0 0 h rfl rfl rfl).mono ?_
      rintro later ⟨hlater, hstack⟩
      refine ⟨hlater, fun p rest hp => ?_⟩
      exact htops.topFree_yieldsToAccess hsuccessor p rest (hstack ▸ hp)
  | memberName =>
      refine (emitText_delivers 1 0 h rfl rfl rfl).mono ?_
      rintro later ⟨hlater, -⟩
      exact ⟨hlater, trivial⟩
  | dollarName =>
      refine (emitText_delivers 0 0 h rfl rfl rfl).mono ?_
      rintro later ⟨hlater, -⟩
      exact ⟨hlater, trivial⟩
  | dot =>
      refine (reduce_delivers h).mono ?_
      rintro later ⟨hlater, -⟩
      exact ⟨hlater, trivial⟩
  | dollar => exact push_delivers ⟨h.push_pending fun _ _ => rfl, trivial⟩
  | unary op =>
      have harity : op.arity = 1 := by
        revert hplain
        cases op <;> simp [Token.Plain, Operator.arity]
      have hfirst : TokenKind.prefixOp ∈ state.successors := by
        have hunary : TokenKind.unaryOp ∈ state.successors := hsuccessor
        revert hunary
        cases state <;> decide
      have hprecedence : 3 ≤ (Pending.operator op start).precedence := by
        revert hplain
        cases op <;> simp [Token.Plain, Pending.precedence, Operator.precedence]
      simp only [step, reduce_of_topFree (htops.topFree_yieldsToUnary hfirst harity)]
      refine push_delivers ⟨h.push_pending fun _ _ => ?_, fun unary hunary =>
        topFree_push (yieldsToUnary_eq_false hunary (Or.inl hprecedence))⟩
      exact ⟨by omega, by rw [harity]; rfl⟩
  | stepBefore op =>
      have harity : op.arity = 1 := by
        rcases hplain with rfl | rfl <;> rfl
      have haccess : (Pending.operator op start).yieldsToAccess = false := by
        rcases hplain with rfl | rfl <;> rfl
      simp only [step, reduce_of_topFree (htops.topFree_yieldsToUnary hsuccessor harity)]
      refine push_delivers ⟨h.push_pending fun _ _ => ?_, topFree_push haccess⟩
      exact ⟨by omega, by rw [harity]; rfl⟩
  | stepAfter op =>
      obtain ⟨stack, output⟩ := c
      obtain ⟨d, ground, rfl, hcarries, htop⟩ := h
      have hstep : step scanner limits ⟨stack, d.assembly⟩ ⟨start, text, .stepAfter op⟩ =
          (d.assembly.pointerize start >>= fun a => a.emit limits.maxRecords (.incDec op) start) >>=
            fun output => .ok ⟨stack, output⟩ := by
        simp only [step, pointerize, emit]
        cases d.assembly.pointerize start <;> rfl
      rw [hstep]
      refine (Pending.step_delivers htop).bind ?_
      rintro _ ⟨next, rfl, hnext, hextends⟩
      exact ⟨⟨next, ground, rfl, hcarries.extend hextends, hnext⟩, trivial⟩
  | substitute =>
      refine (binary_delivers h rfl).mono ?_
      rintro later ⟨hlater, -, hsubstitute⟩
      exact ⟨hlater, hsubstitute rfl⟩
  | binary op =>
      refine (binary_delivers h hplain).mono ?_
      rintro later ⟨hlater, hfree, -⟩
      exact ⟨hlater, hfree⟩
  | assign op => exact assign_delivers h
  | _ => exact hplain.elim

theorem ne_finish_of_ends (h : state = .start ∨ .finish ∈ state.successors) : state ≠ .finish := by
  rintro rfl
  rcases h with h | h <;> cases h

theorem Follows.coherent {r : Reading} (h : c.Follows r) (hstate : r.state ≠ .finish) :
    c.Coherent r.frames (r.state.holds + r.bound.toNat) ∧ c.Tops r.state := by
  rwa [Follows, if_neg hstate] at h

theorem follows_of_coherent {r : Reading} (hstate : r.state ≠ .finish)
    (h : c.Coherent r.frames (r.state.holds + r.bound.toNat)) (htops : c.Tops r.state) :
    c.Follows r := by
  rw [Follows, if_neg hstate]
  exact ⟨h, htops⟩

-- Where a token of some kind may follow, the values are there that it needs.
theorem Follows.needs {kind : TokenKind} (h : c.Follows ⟨state, false, frames⟩)
    (hsuccessor : kind ∈ state.successors) : c.Coherent frames kind.needs ∧ c.Tops state := by
  have hstate : state ≠ .finish := by
    rintro rfl
    cases hsuccessor
  obtain ⟨hcoherent, htops⟩ := h.coherent hstate
  rw [← TokenKind.holds_of_successor hsuccessor]
  exact ⟨hcoherent, htops⟩

-- A comma between items applies everything in front of it.
theorem yields_collect : Pending.yields .collect = fun _ => true := by
  have hop : ∀ op : Operator, op.precedence ≤ 18 := by
    intro op
    cases op <;> decide
  funext p
  refine decide_eq_true ?_
  show p.precedence ≤ 18
  unfold Pending.precedence
  split
  · decide
  · decide
  · exact hop _
  · exact hop _
  · decide
  · decide
  · decide

theorem openGroup_delivers {group : Group} {bound : Bool} {pos : Nat}
    (hsuccessor : if bound then state = .name ∧ group = .call else group.kind ∈ state.successors)
    (h : c.Coherent frames (state.holds + bound.toNat)) (htops : c.Tops state) :
    Delivers scanner (fun after =>
      after.Coherent (⟨some group, group.inherits bound, 0⟩ :: frames) 0 ∧
      after.TopFree fun _ => true) (c.openGroup limits group pos) := by
  cases bound with
  | true =>
      obtain ⟨rfl, rfl⟩ := hsuccessor
      simp only [openGroup, reduce_of_topFree (show c.TopFree Pending.yieldsToAccess from htops)]
      exact push_delivers ⟨h.push_bracket (by rintro ⟨⟩), topFree_barrier⟩
  | false =>
      have hholds : state.holds = group.kind.needs := TokenKind.holds_of_successor hsuccessor
      rw [hholds] at h
      cases group with
      | call | subscript =>
          refine (reduce_delivers h).bind ?_
          rintro mid ⟨hmid, -⟩
          exact push_delivers ⟨hmid.push_bracket (by rintro ⟨⟩), topFree_barrier⟩
      | substArgs =>
          refine push_delivers ⟨h.push_bracket fun _ => ?_, topFree_barrier⟩
          have hstate : state = .substOperator := by
            have hargs : TokenKind.substArgs ∈ state.successors := hsuccessor
            revert hargs
            cases state <;> decide
          subst hstate
          exact htops
      | subExpr | list | dict =>
          exact push_delivers ⟨h.push_bracket (by rintro ⟨⟩), topFree_barrier⟩

-- Each token takes the compiler along with the reader.
theorem step_delivers {r next : Reading} (hnext : Reading.Next scanner r token next)
    (h : c.Follows r) :
    Delivers scanner (fun after => after.Follows next) (c.step scanner limits token) := by
  cases hnext with
  | plain hsuccessor hplain =>
      obtain ⟨hcoherent, htops⟩ := h.needs hsuccessor
      refine (plain_delivers hplain hsuccessor hcoherent htops).mono ?_
      rintro after ⟨hafter, hafterTops⟩
      exact follows_of_coherent hplain.kind_ne_finish hafter hafterTops
  | boundName hform =>
      obtain ⟨hcoherent, htops⟩ := h.coherent (by simp)
      simp only [step, hform]
      refine (stringValue_delivers (by rintro ⟨⟩)).bind fun value _ => ?_
      refine (emitText_delivers 0 1 hcoherent rfl rfl rfl).mono ?_
      rintro after ⟨hafter, hstack⟩
      refine follows_of_coherent (by simp) hafter fun p rest hp => ?_
      exact htops p rest (hstack ▸ hp)
  | @separate _ group held _ _ hsuccessor hform =>
      have hneeds : token.kind.needs = 1 := by
        rcases hform with hform | hform <;> rw [Token.kind, hform] <;> rfl
      obtain ⟨hcoherent, -⟩ := h.needs hsuccessor
      rw [hneeds] at hcoherent
      have hstep : c.step scanner limits token = c.flush limits := by
        rcases hform with hform | hform
        · simp only [step, hform, binary, yields_collect]
          cases hflush : c.reduce limits fun _ => true with
          | ok after => rw [flush, hflush]; rfl
          | error e => rw [flush, hflush]; rfl
        · simp only [step, hform, yields_collect, flush]
      rw [hstep]
      refine (flush_delivers hcoherent).mono ?_
      rintro after ⟨hafter, hbare⟩
      have hcollected := hafter.collect hbare
      rcases hform with hform | hform
      · simp only [Token.kind, hform]
        exact follows_of_coherent (by simp [Form.kind]) hcollected fun _ _ => hbare.of_bare
      · simp only [Token.kind, hform]
        exact follows_of_coherent (by simp [Form.kind]) hcollected fun _ _ => hbare.of_bare
  | question hsuccessor hform =>
      obtain ⟨hcoherent, -⟩ := h.needs hsuccessor
      simp only [step, hform]
      refine (question_delivers hcoherent).mono ?_
      rintro after ⟨hafter, hbare⟩
      exact follows_of_coherent (by simp) hafter fun _ _ => hbare.of_bare
  | colon hsuccessor hform =>
      obtain ⟨hcoherent, -⟩ := h.needs hsuccessor
      simp only [step, hform]
      refine (colon_delivers hcoherent).mono ?_
      rintro after ⟨hafter, hfree⟩
      exact follows_of_coherent (by simp) hafter hfree
  | @opening state bound _ _ group hsuccessor hform =>
      have hstate : state ≠ .finish := by
        rintro rfl
        cases bound with
        | true => cases hsuccessor.1
        | false => cases hsuccessor
      obtain ⟨hcoherent, htops⟩ := h.coherent hstate
      simp only [step, hform]
      refine (openGroup_delivers hsuccessor hcoherent htops).mono ?_
      rintro after ⟨hafter, hbare⟩
      exact follows_of_coherent (by simp) hafter hbare
  | @closing state _ _ _ _ _ found hends hform hvalues =>
      obtain ⟨hcoherent, htops⟩ := h.coherent (ne_finish_of_ends hends)
      simp only [step, hform]
      refine (closeGroup_delivers hcoherent htops hends hvalues).mono ?_
      intro after hafter
      cases found <;> exact follows_of_coherent (by simp [Closing.group, Group.kind]) hafter trivial
  | @sliceMark state _ _ _ hends hform =>
      obtain ⟨hcoherent, htops⟩ := h.coherent (ne_finish_of_ends hends)
      simp only [step, hform]
      refine (flush_delivers_of_ends hcoherent htops hends).bind ?_
      rintro after ⟨hafter, hbare⟩
      refine (belowBracket_delivers hafter hbare).bind fun _ _ => ?_
      exact follows_of_coherent (by simp) (hafter.collect hbare) hbare
  | finish hends hform =>
      obtain ⟨hcoherent, -⟩ := h.needs hends
      simp only [step, hform]
      refine (finish_delivers hcoherent).mono ?_
      intro after hafter
      rw [Follows, if_pos rfl]
      exact hafter

-- All tokens of a reading.
theorem foldlM_delivers {r last : Reading} {tokens : List Token}
    (hrun : Reading.Run scanner r tokens last) (h : c.Follows r) :
    Delivers scanner (fun after => after.Follows last) (tokens.foldlM (step scanner limits) c) := by
  induction hrun generalizing c with
  | nil => exact h
  | cons hnext _ ih =>
      rw [List.foldlM_cons]
      exact (step_delivers hnext h).bind fun _ hmid => ih hmid

theorem follows_start : start.Follows Reading.start :=
  follows_of_coherent (by simp [Reading.start])
    ⟨.empty, [], rfl, ⟨.outside, by rintro index ⟨instr, ⟨⟩, -⟩⟩, rfl⟩ (by rintro p rest ⟨⟩)

end Step

end Compiler

-- The code of a formula is whole, whatever the scanner.
theorem assemble_delivers {scanner : NumberScanner} {limits : Limits} {tokens : List Token}
    {last : Reading} (hrun : Reading.Run scanner .start tokens last) (hlast : last.state = .finish) :
    Delivers scanner (fun code => code.Complete ∧ ∃ shapes, code.Shaped shapes)
      (assemble scanner limits tokens) := by
  refine (Compiler.foldlM_delivers hrun Compiler.follows_start).bind ?_
  intro c hc
  rw [Compiler.Follows, if_pos hlast] at hc
  exact hc

theorem complete_of_assemble {setup : Setup} {maxTokens : Option Nat} {text : List Char}
    {tokenized : Tokenized} {limits : Limits} {code : Code}
    (htokens : tokenize setup maxTokens text = .ok tokenized)
    (hdict : setup.permissions.dict = false)
    (hcode : assemble setup.scanner limits tokenized.tokens = .ok code) :
    code.Complete ∧ ∃ shapes, code.Shaped shapes := by
  obtain ⟨last, hlast, hrun⟩ := tokenize_eq_ok htokens hdict
  have hdelivers : Delivers setup.scanner _ (assemble setup.scanner limits tokenized.tokens) :=
    assemble_delivers hrun hlast
  rw [hcode] at hdelivers
  exact hdelivers

-- What a compilation that succeeds has gone through.
theorem compile_eq_ok {scanner : NumberScanner} {options : Options} {text : String}
    {line sourceId : Nat} {file : String} {formula : CompiledFormula} {stop : Nat}
    (h : compile scanner options text line sourceId file = .ok (formula, stop)) :
    ∃ tokenized code,
      tokenize (options.setup scanner) (some options.limits.maxTokens) text.toList =
        .ok tokenized ∧
      assemble scanner options.limits tokenized.tokens = .ok code ∧
      formula.code = code.thread.1 ∧ stop = tokenized.stop := by
  simp only [compile, bind, Except.bind] at h
  split at h
  · rename_i tokenized htokenized
    split at h
    · cases h
    · rename_i code hcode
      split at h
      · cases h
      · cases h
        exact ⟨tokenized, code, htokenized, hcode, rfl, rfl⟩
  · cases h

-- Code that is assembled whole passes the last check.
theorem compile_of_assemble {scanner : NumberScanner} {options : Options} {text : String}
    {tokenized : Tokenized} {code : Code}
    (htokens : tokenize (options.setup scanner) (some options.limits.maxTokens) text.toList =
      .ok tokenized)
    (hcode : assemble scanner options.limits tokenized.tokens = .ok code) (hcomplete : code.Complete)
    (line sourceId : Nat) (file : String) :
    compile scanner options text line sourceId file =
      .ok (⟨String.ofList (splitAtByte tokenized.stop text.toList).1, line, sourceId, file,
        code.thread.1⟩, tokenized.stop) := by
  unfold compile
  simp only [htokens, hcode, bind, Except.bind, hcomplete.thread.validate_eq_ok]
  rfl

theorem compile_delivers (scanner : NumberScanner) (options : Options) (text : String)
    (line sourceId : Nat) (file : String) :
    Delivers scanner (fun answer => answer.1.code.Complete ∧ ∃ shapes, answer.1.code.Shaped shapes)
      (compile scanner options text line sourceId file) := by
  unfold compile
  cases htokens : tokenize (options.setup scanner) (some options.limits.maxTokens) text.toList with
  | error e =>
      intro breach hbreach
      simp only [LexError.toCompileError] at hbreach
      split at hbreach <;> cases hbreach
  | ok tokenized =>
      obtain ⟨last, hlast, hrun⟩ := tokenize_eq_ok htokens rfl
      refine (assemble_delivers hrun hlast).bind ?_
      rintro code ⟨hcomplete, shapes, hshaped⟩
      have hthreaded := hcomplete.thread
      simp only [hthreaded.validate_eq_ok]
      exact ⟨hthreaded, shapes, hshaped.thread⟩

-- The stack check accepts all code that the compiler makes: no path takes from an empty stack, all
-- paths into an instruction agree, branches lead forward, and a return finds one value.
theorem compile_balanced {scanner : NumberScanner} {options : Options} {text : String}
    {line sourceId : Nat} {file : String} {formula : CompiledFormula} {stop : Nat}
    (h : compile scanner options text line sourceId file = .ok (formula, stop)) :
    (∃ depth, formula.code.maxDepth = .ok depth) ∧ formula.code.Balanced := by
  have hdelivers := compile_delivers scanner options text line sourceId file
  rw [h] at hdelivers
  obtain ⟨hcomplete, shapes, hshaped⟩ := hdelivers
  exact ⟨hshaped.maxDepth_eq_ok hcomplete, hshaped.balanced hcomplete⟩

theorem compile_balanced_conditional : ∃ formula stop,
    compile scanNumber {} "a&&b?c:d" 1 0 "" = .ok (formula, stop) ∧
      (∃ depth, formula.code.maxDepth = .ok depth) ∧ formula.code.Balanced := by
  have hok : (compile scanNumber {} "a&&b?c:d" 1 0 "").isOk = true := by
    decide +kernel
  obtain ⟨⟨formula, stop⟩, h⟩ := exists_ok hok
  exact ⟨formula, stop, h, compile_balanced h⟩

end FormulaCode
