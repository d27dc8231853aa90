import FormulaCode.Proofs.Code.Listing
import FormulaCode.Proofs.Compile.Draft
import FormulaCode.Proofs.Compile.Faithful
import FormulaCode.Proofs.Decimal.Scanned

namespace FormulaCode

-- What goes from a token into code as it stands: a name has no zero in it, and a step behind its
-- operand is one.
def Token.IsClean (token : Token) : Prop :=
  match token.form with
  | .name | .memberName | .dollarName => '\x00' ∉ token.text
  | .stepAfter op => op ∈ [.postDecrement, .postIncrement]
  | _ => True

theorem isClean_of_nextMove {setup : Setup} {level : Level} {cur next : Cursor} {c : Char}
    {rest : List Char} {form : Form} {extra pos : Nat}
    (h : nextMove setup level cur (c :: rest) = .ok (.token form extra next)) :
    Token.IsClean ⟨pos, c :: rest.take extra, form⟩ := by
  obtain ⟨-, -, hfound⟩ := mem_successors_of_nextMove h (by simp)
  cases form with
  | name =>
      have hword := name_reads isSealed_nil (Except.ok.inj hfound)
      exact (isIdentifier_of_word? hword).zero_not_mem
  | memberName | dollarName =>
      obtain ⟨word, hword, htoken⟩ := Option.bind_eq_some_iff.mp (Except.ok.inj hfound)
      exact (isIdentifier_of_word? (word_reads isSealed_nil hword htoken)).zero_not_mem
  | stepAfter op =>
      have hmove : cur.stepMove (.stepAfter .postDecrement) (.stepAfter .postIncrement) (c :: rest) =
          some (.token (.stepAfter op) extra next) := Except.ok.inj hfound
      unfold Cursor.stepMove at hmove
      split at hmove
      · cases hmove
        exact List.mem_cons_self
      · split at hmove
        · cases hmove
          exact List.mem_cons_of_mem _ List.mem_cons_self
        · cases hmove
  | _ => trivial

theorem isClean_of_binder {setup : Setup} {level : Level} {cur : Cursor} {c : Char}
    {rest : List Char} {stem extra pos : Nat}
    (h : nextMove setup level cur (c :: rest) = .ok (.binder stem extra)) :
    Token.IsClean ⟨pos, (c :: rest.take extra).take stem, .name⟩ := by
  obtain ⟨word, found, hword, hstem, rfl, htake⟩ := word_of_binder h
  have hname : (c :: rest.take extra).take found.length = found := by
    rw [htake, binderStem?_prefix hstem, List.take_left]
  rw [hname]
  have hidentifier : IsIdentifier found := IsName.isIdentifier (Or.inr ⟨word, hword, hstem⟩)
  exact hidentifier.zero_not_mem

theorem clean_rules (setup : Setup) :
    ScanRules setup fun _ _ _ tokens _ => ∀ token ∈ tokens, token.IsClean := by
  refine .of_each ?_ isClean_of_nextMove isClean_of_binder
  intro pos text form hform
  cases form with
  | string | opening | closing | sliceMark | finish => trivial
  | _ => cases hform

namespace Assembly

variable {a : Assembly} (h : a.code.IsLegible) {limit pos : Nat}

include h

theorem append_legible {piece : Piece} (hpiece : piece.Legible) :
    Ensures (fun b => b.code.IsLegible) (a.append limit piece.records pos) := by
  unfold append
  split
  · exact .error
  · exact .ok (h.append hpiece)

theorem emit_legible (op : Op) (htext : op.hasText = false) (hop : op.IsLegible) :
    Ensures (fun b => b.code.IsLegible) (a.emit limit op pos) := by
  have hrecords : Piece.records ⟨op, [], .ofNat pos⟩ = [.instr ⟨op, 1, .ofNat pos⟩] := by
    simp [Piece.records, Piece.head, Piece.chunks, htext, Code.block]
  have hpiece : Piece.Legible ⟨op, [], .ofNat pos⟩ := ⟨List.not_mem_nil, hop⟩
  rw [emit, ← hrecords]
  exact append_legible h hpiece

theorem emitText_legible {op : Op} {text : List Char} (htext : op.hasText = true)
    (hop : op.IsLegible) (hzero : '\x00' ∉ text) :
    Ensures (fun b => b.code.IsLegible) (a.emitText limit op text pos) := by
  have hrecords : Piece.records ⟨op, text, .ofNat pos⟩ =
      .instr ⟨op, 1 + (textChunks text).length, .ofNat pos⟩ :: (textChunks text).map .text := by
    simp [Piece.records, Piece.head, Piece.chunks, htext, Code.block]
  rw [emitText, ← hrecords]
  exact append_legible h ⟨hzero, hop⟩

theorem patch_legible (index : Nat) :
    Ensures (fun b => b.code.IsLegible) (a.patch index) := by
  unfold patch
  split
  · exact .error
  · rename_i instr hinstr
    split
    · rename_i op hop
      exact .ok (h.withTarget hinstr hop)
    · exact .error

theorem pointerize_legible : Ensures (fun b => b.code.IsLegible) (a.pointerize pos) := by
  unfold pointerize
  split
  · exact .error
  · split
    · exact .error
    · rename_i instr hinstr
      split
      · rename_i pointer hpointer
        obtain ⟨-, -, -, -, -, htext, -⟩ := Op.pointerForm?_eq_some hpointer
        exact .ok (h.setOp hinstr htext (Op.isLegible_of_pointerForm? hpointer))
      · exact .error
      · exact .error

theorem step_legible {op : Operator} (hop : op ∈ Operator.steps) :
    Ensures (fun b => b.code.IsLegible)
      (a.pointerize pos >>= fun b => b.emit limit (.incDec op) pos) :=
  (pointerize_legible h).bind fun _ hb => emit_legible hb _ rfl hop

end Assembly

theorem Pending.apply_legible {a : Assembly} (h : a.code.IsLegible) (limit : Nat) (p : Pending) :
    Ensures (fun b => b.code.IsLegible) (p.apply limit a) := by
  unfold Pending.apply
  split
  · exact Assembly.emit_legible h _ rfl trivial
  · exact Assembly.step_legible h (by decide)
  · exact Assembly.step_legible h (by decide)
  · exact Assembly.emit_legible h _ rfl trivial
  · exact (Assembly.emit_legible h .makeBool rfl trivial).bind fun b hb => Assembly.patch_legible hb _
  · exact Assembly.emit_legible h _ rfl trivial
  · exact (Assembly.patch_legible h _).bind fun b hb => .ok hb
  · exact Assembly.emit_legible h _ rfl trivial

theorem reduceWhile_legible {a : Assembly} (h : a.code.IsLegible) (limit : Nat)
    (yields : Pending → Bool) (stack : List Entry) :
    Ensures (fun answer : List Entry × Assembly => answer.2.code.IsLegible)
      (reduceWhile limit yields stack a) := by
  induction stack generalizing a with
  | nil => exact .ok h
  | cons entry rest ih =>
      cases entry with
      | barrier b => exact .ok h
      | pending p =>
          rw [reduceWhile]
          split
          · exact (Pending.apply_legible h limit p).bind fun b hb => ih hb
          · exact .ok h

namespace Compiler

def IsLegible (c : Compiler) : Prop :=
  c.output.code.IsLegible

variable {limits : Limits} {c : Compiler} (h : c.IsLegible) {pos : Nat}

include h

theorem push_legible (entry : Entry) : Ensures IsLegible (c.push limits entry) := by
  unfold push
  split
  · exact .error
  · exact .ok h

theorem emit_legible (op : Op) (htext : op.hasText = false) (hop : op.IsLegible) :
    Ensures IsLegible (c.emit limits op pos) :=
  (Assembly.emit_legible h op htext hop).bind fun _ houtput => .ok houtput

theorem emitText_legible {op : Op} {text : List Char} (htext : op.hasText = true)
    (hop : op.IsLegible) (hzero : '\x00' ∉ text) :
    Ensures IsLegible (c.emitText limits op text pos) :=
  (Assembly.emitText_legible h htext hop hzero).bind fun _ houtput => .ok houtput

theorem pointerize_legible : Ensures IsLegible (c.pointerize pos) :=
  (Assembly.pointerize_legible h).bind fun _ houtput => .ok houtput

theorem reduce_legible (yields : Pending → Bool) : Ensures IsLegible (c.reduce limits yields) :=
  (reduceWhile_legible h _ yields c.stack).bind fun _ houtput => .ok houtput

theorem flush_legible : Ensures IsLegible (c.flush limits) :=
  reduce_legible h _

theorem binary_legible (op : Operator) : Ensures IsLegible (c.binary limits op pos) := by
  refine (reduce_legible h _).bind fun after hafter => ?_
  cases op with
  | collect => exact .ok hafter
  | logicalAnd =>
      refine (emit_legible hafter (.branchIfFalse _) rfl trivial).bind fun later hlater => ?_
      exact push_legible hlater _
  | logicalOr =>
      refine (emit_legible hafter (.branchIfTrue _) rfl trivial).bind fun later hlater => ?_
      exact push_legible hlater _
  | _ => exact push_legible hafter _

theorem question_legible : Ensures IsLegible (c.question limits pos) := by
  refine (reduce_legible h _).bind fun after hafter => ?_
  refine (emit_legible hafter (.branchIfFalse _) rfl trivial).bind fun later hlater => ?_
  exact push_legible hlater _

theorem colon_legible : Ensures IsLegible (c.colon limits pos) := by
  refine (flush_legible h).bind fun after hafter => ?_
  split
  · rename_i rest _
    refine (Assembly.emit_legible hafter (.goto none) rfl trivial).bind fun output houtput => ?_
    refine (Assembly.patch_legible houtput _).bind fun patched hpatched => ?_
    have hopen : IsLegible ⟨rest, patched⟩ := hpatched
    exact push_legible hopen _
  · exact .error

theorem openGroup_legible (group : Group) : Ensures IsLegible (c.openGroup limits group pos) := by
  unfold openGroup
  split
  · exact (reduce_legible h _).bind fun after hafter => push_legible hafter _
  · exact (reduce_legible h _).bind fun after hafter => push_legible hafter _
  · exact push_legible h _

theorem closeGroup_legible (found : Closing) (token : Token) :
    Ensures IsLegible (c.closeGroup limits found token) := by
  refine (flush_legible h).bind fun after hafter => ?_
  refine (Ensures.any (after.belowBracket found.group token)).bind fun below _ => ?_
  have hopen : ∀ stack, IsLegible ⟨stack, after.output⟩ := fun _ => hafter
  cases found with
  | subExpr => exact .ok hafter
  | call | list | dict | subscript => exact emit_legible (hopen _) _ rfl trivial
  | substArgs items =>
      dsimp only
      split
      · exact emit_legible (hopen _) _ rfl trivial
      · exact .error

theorem finish_legible : Ensures IsLegible (c.finish limits pos) := by
  refine (flush_legible h).bind fun after hafter => ?_
  split
  · exact emit_legible hafter _ rfl trivial
  · exact .error
  · exact .error

variable {scanner : NumberScanner} (hscanner : scanner.Proper)

include hscanner

-- What a token adds to the code can be told from a listing of it.
theorem step_legible {token : Token} (hclean : token.IsClean) :
    Ensures IsLegible (c.step scanner limits token) := by
  obtain ⟨start, text, form⟩ := token
  cases form with
  | number =>
      simp only [step]
      split
      · rename_i value width hscan
        exact emit_legible h _ rfl (hscanner _ _ _ hscan)
      · exact .error
  | string verbatim =>
      have hvalue : Ensures (fun value => '\x00' ∉ value)
          (stringValue ⟨start, text, .string verbatim⟩ verbatim) :=
        fun _ => zero_not_mem_of_stringValue
      exact hvalue.bind fun value hzero => emitText_legible h rfl trivial hzero
  | name | memberName | dollarName => exact emitText_legible h rfl trivial hclean
  | dot => exact reduce_legible h _
  | dollar => exact push_legible h _
  | unary op | stepBefore op =>
      exact (reduce_legible h _).bind fun after hafter => push_legible hafter _
  | stepAfter op =>
      refine (pointerize_legible h).bind fun after hafter => emit_legible hafter _ rfl ?_
      have hop : op ∈ [.postDecrement, .postIncrement] := hclean
      exact List.mem_append_left [.preDecrement, .preIncrement] hop
  | substitute => exact binary_legible h _
  | binary op => exact binary_legible h op
  | ternary mark =>
      cases mark with
      | question => exact question_legible h
      | colon => exact colon_legible h
      | pair => exact reduce_legible h _
  | assign op =>
      refine (reduce_legible h _).bind fun mid hmid => ?_
      exact (pointerize_legible hmid).bind fun after hafter => push_legible hafter _
  | opening group => exact openGroup_legible h group
  | closing found => exact closeGroup_legible h found _
  | sliceMark =>
      refine (flush_legible h).bind fun after hafter => ?_
      exact (Ensures.any (after.belowBracket .subscript _)).bind fun _ _ => .ok hafter
  | finish items => exact finish_legible h

theorem foldlM_legible {tokens : List Token} (hclean : ∀ token ∈ tokens, token.IsClean) :
    Ensures IsLegible (tokens.foldlM (step scanner limits) c) := by
  induction tokens generalizing c with
  | nil => exact .ok h
  | cons token rest ih =>
      obtain ⟨htoken, hrest⟩ := List.forall_mem_cons.mp hclean
      rw [List.foldlM_cons]
      exact (step_legible h hscanner htoken).bind fun after hafter => ih hafter hrest

end Compiler

theorem assemble_legible {scanner : NumberScanner} (hscanner : scanner.Proper) {limits : Limits}
    {tokens : List Token} (hclean : ∀ token ∈ tokens, token.IsClean) :
    Ensures Code.IsLegible (assemble scanner limits tokens) := by
  have hstart : Compiler.start.IsLegible := Code.isLegible_empty
  exact (Compiler.foldlM_legible hstart hscanner hclean).bind fun _ hc => .ok hc

-- Whatever a formula compiles to can be told from a listing of it.
theorem isLegible_of_compile {scanner : NumberScanner} (hscanner : scanner.Proper)
    {options : Options} {text : String} {line sourceId : Nat} {file : String}
    {formula : CompiledFormula} {stop : Nat}
    (h : compile scanner options text line sourceId file = .ok (formula, stop)) :
    formula.code.IsLegible := by
  obtain ⟨tokenized, code, htokens, hcode, hthread, -⟩ := compile_eq_ok h
  obtain ⟨-, hclean⟩ := (clean_rules _).of_tokenize htokens
  rw [hthread]
  exact (assemble_legible hscanner hclean code hcode).thread

-- Formulas whose code is listed alike have the same code, but for the offsets that it comes from.
theorem compile_listing_eq_iff {scanner scanner' : NumberScanner} (hscanner : scanner.Proper)
    (hscanner' : scanner'.Proper) {options options' : Options} {text text' : String}
    {line line' sourceId sourceId' : Nat} {file file' : String} {formula formula' : CompiledFormula}
    {stop stop' : Nat}
    (h : compile scanner options text line sourceId file = .ok (formula, stop))
    (h' : compile scanner' options' text' line' sourceId' file' = .ok (formula', stop')) :
    formula.code.listing = formula'.code.listing ↔
      (formula.code.relocate fun _ _ => 0) = formula'.code.relocate fun _ _ => 0 :=
  (isLegible_of_compile hscanner h).listing_eq_iff (isLegible_of_compile hscanner' h')

theorem compile_listing_eq_iff_spaced : ∃ formula stop formula' stop',
    compile scanNumber {} "x[1]?\"; ( -- x )\n0004\":-0.5" 1 0 "" = .ok (formula, stop) ∧
      compile scanNumber {} " x[1] ? '; ( -- x )\n0004' : - 0.5" 1 0 "" = .ok (formula', stop') ∧
      (formula.code.listing = formula'.code.listing ↔
        (formula.code.relocate fun _ _ => 0) = formula'.code.relocate fun _ _ => 0) ∧
      formula.code.listing = formula'.code.listing ∧ formula.code ≠ formula'.code := by
  have hcodes : ((compile scanNumber {} "x[1]?\"; ( -- x )\n0004\":-0.5" 1 0 "").toOption.any
      fun answer => (compile scanNumber {} " x[1] ? '; ( -- x )\n0004' : - 0.5" 1 0 "").toOption.any
        fun answer' => (answer.1.code.relocate fun _ _ => 0) = (answer'.1.code.relocate fun _ _ => 0) &&
          answer.1.code ≠ answer'.1.code) = true := by
    decide +kernel
  have hok : (compile scanNumber {} "x[1]?\"; ( -- x )\n0004\":-0.5" 1 0 "").isOk = true := by
    decide +kernel
  have hok' : (compile scanNumber {} " x[1] ? '; ( -- x )\n0004' : - 0.5" 1 0 "").isOk = true := by
    decide +kernel
  obtain ⟨⟨formula, stop⟩, h⟩ := exists_ok hok
  obtain ⟨⟨formula', stop'⟩, h'⟩ := exists_ok hok'
  rw [h, h'] at hcodes
  obtain ⟨hsame, hne⟩ := Bool.and_eq_true_iff.mp hcodes
  have hiff := compile_listing_eq_iff proper_scanNumber proper_scanNumber h h'
  exact ⟨formula, stop, formula', stop', h, h', hiff, hiff.mpr (of_decide_eq_true hsame),
    of_decide_eq_true hne⟩

end FormulaCode
