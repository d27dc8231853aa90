import FormulaCode.Compile.Basic
import FormulaCode.Proofs.Code.Threading

namespace FormulaCode

-- The part of a text that is found again in code, where a zero ends it.
def beforeZero (text : List Char) : List Char :=
  text.takeWhile (· ≠ '\x00')

-- What an instruction and the text behind it take over from a token.
def Token.Gives (scanner : NumberScanner) (token : Token) (op : Op) (text : Option (List Char)) :
    Prop :=
  match op with
  | .pushNumber value => token.form = .number ∧ ∃ width, scanner token.text = some (value, width)
  | .pushString =>
      (∃ verbatim value, token.form = .string verbatim ∧ Compiler.stringValue token verbatim = .ok value ∧
        text = some (beforeZero value)) ∨
      (token.form = .dollarName ∧ text = some (beforeZero token.text))
  | .lookupValue | .lookupPointer => token.form = .name ∧ text = some (beforeZero token.text)
  | .derefValue | .derefPointer => token.form = .memberName ∧ text = some (beforeZero token.text)
  | _ => True

-- The pointer form of an access is made for the same token.
theorem Token.Gives.pointerForm {scanner : NumberScanner} {token : Token} {op pointer : Op}
    {text : Option (List Char)} (h : token.Gives scanner op text)
    (hpointer : op.pointerForm? = some pointer) : token.Gives scanner pointer text := by
  cases op with
  | lookupValue | derefValue =>
      cases hpointer
      exact h
  | sliceValue shape =>
      simp only [Op.pointerForm?, Option.ite_none_right_eq_some] at hpointer
      cases hpointer.2
      trivial
  | _ => cases hpointer

theorem Token.gives_of_isBranch (scanner : NumberScanner) (token : Token) {op : Op}
    (text : Option (List Char)) (h : op.isBranch = true) : token.Gives scanner op text := by
  cases op with
  | branchIfFalse | branchIfTrue | goto => trivial
  | _ => cases h

section Sourced

variable (scanner : NumberScanner) (tokens : List Token)

def IsTokenStart (pos : Nat) : Prop :=
  ∃ token ∈ tokens, token.start = pos

-- An instruction and its text may be written for the token at an offset.
def Allows (pos : Nat) (op : Op) (text : Option (List Char)) : Prop :=
  ∃ token ∈ tokens, token.start = pos ∧ token.Gives scanner op text

-- Every instruction is made for the token at the offset that it comes from.
def Code.Sourced (code : Code) : Prop :=
  ∀ index instr, code.instr? index = some instr → index + instr.len ≤ code.size ∧
    ∃ offset, instr.pos = .ofNat offset ∧ Allows scanner tokens offset instr.op (code.textAt? index)

structure Compiler.Sourced (c : Compiler) : Prop where
  code : c.output.code.Sourced scanner tokens
  stack : ∀ entry ∈ c.stack, IsTokenStart tokens entry.pos

end Sourced

-- Whenever a run succeeds, its answer satisfies the postcondition.
def Ensures (post : α → Prop) (run : Except CompileError α) : Prop :=
  ∀ a, run = .ok a → post a

namespace Ensures

variable {α β : Type} {post : α → Prop}

theorem ok {a : α} (h : post a) : Ensures post (.ok a) := by
  rintro _ ⟨⟩
  exact h

theorem error {e : CompileError} : Ensures post (.error e) := by
  rintro _ ⟨⟩

theorem any (run : Except CompileError α) : Ensures (fun _ => True) run :=
  fun _ _ => trivial

theorem bind {run : Except CompileError α} {next : α → Except CompileError β} {after : β → Prop}
    (h : Ensures post run) (hnext : ∀ a, post a → Ensures after (next a)) :
    Ensures after (run >>= next) := by
  cases run with
  | error e => exact error
  | ok a => exact hnext a (h a rfl)

end Ensures

-- An offset that a failure may name: the start of the text, or a place in a token.
def IsReported (tokens : List Token) (offset : Nat) : Prop :=
  offset = 0 ∨ ∃ token ∈ tokens, ∃ before after, token.text = before ++ after ∧
    offset = token.start + byteLength before

-- A run ensures its postcondition, and says where in the tokens it fails. An instruction that has no
-- target is reported by the offset it keeps, and nothing is said of it here.
def Reports (tokens : List Token) (post : α → Prop) (run : Except CompileError α) : Prop :=
  Ensures post run ∧ ∀ e, run = .error e →
    (∃ op, e.cause = .breach (.notABranch op)) ∨ IsReported tokens e.offset

namespace Reports

variable {α β : Type} {tokens : List Token} {post : α → Prop}

theorem ok {a : α} (h : post a) : Reports tokens post (.ok a) := by
  refine ⟨.ok h, ?_⟩
  rintro _ ⟨⟩

theorem error {e : CompileError} (h : IsReported tokens e.offset) :
    Reports tokens post (.error e) := by
  refine ⟨.error, ?_⟩
  rintro _ ⟨⟩
  exact Or.inr h

theorem notABranch {offset : Nat} {op : Op} :
    Reports tokens post (.error ⟨offset, .breach (.notABranch op)⟩) := by
  refine ⟨.error, ?_⟩
  rintro _ ⟨⟩
  exact Or.inl ⟨op, rfl⟩

theorem bind {run : Except CompileError α} {next : α → Except CompileError β} {after : β → Prop}
    (h : Reports tokens post run) (hnext : ∀ a, post a → Reports tokens after (next a)) :
    Reports tokens after (run >>= next) := by
  cases run with
  | error e =>
      refine ⟨.error, ?_⟩
      rintro _ ⟨⟩
      exact h.2 e rfl
  | ok a => exact hnext a (h.1 a rfl)

end Reports

variable {scanner : NumberScanner} {tokens : List Token}

theorem IsTokenStart.isReported {pos : Nat} (h : IsTokenStart tokens pos) :
    IsReported tokens pos := by
  obtain ⟨token, hmem, rfl⟩ := h
  exact Or.inr ⟨token, hmem, [], token.text, rfl, rfl⟩

theorem Allows.isTokenStart {pos : Nat} {op : Op} {text : Option (List Char)}
    (h : Allows scanner tokens pos op text) : IsTokenStart tokens pos := by
  obtain ⟨token, hmem, hstart, -⟩ := h
  exact ⟨token, hmem, hstart⟩

-- An instruction without a text and without a number may be written for any token.
theorem IsTokenStart.allows {pos : Nat} (h : IsTokenStart tokens pos) {op : Op}
    (hop : ∀ token, Token.Gives scanner token op none) : Allows scanner tokens pos op none := by
  obtain ⟨token, hmem, hstart⟩ := h
  exact ⟨token, hmem, hstart, hop token⟩

theorem IsTokenStart.allows_branch {pos : Nat} (h : IsTokenStart tokens pos) {op : Op}
    (hop : op.isBranch = true) : Allows scanner tokens pos op none :=
  h.allows fun token => token.gives_of_isBranch scanner none hop

namespace Code

theorem Sourced.append {code : Code} (h : code.Sourced scanner tokens) {instr : Instr}
    {chunks : List Chunk} {offset : Nat} (hlen : instr.len = 1 + chunks.length)
    (hpos : instr.pos = .ofNat offset)
    (hnew : Allows scanner tokens offset instr.op (payloadText? (chunks.map .text))) :
    (code.append instr chunks).Sourced scanner tokens := by
  intro index found hfound
  rcases instr?_append.mp hfound with hold | ⟨rfl, rfl⟩
  · obtain ⟨hfits, htoken⟩ := h index found hold
    rw [size_append_block, Code.append, textAt?_append code _ hold hfits]
    exact ⟨by omega, htoken⟩
  · rw [size_append_block, textAt?_append_size code found chunks hlen]
    exact ⟨by omega, offset, hpos, hnew⟩

theorem Sourced.setOp {code : Code} (h : code.Sourced scanner tokens) {index : Nat} {instr : Instr}
    {op : Op} (hinstr : code.instr? index = some instr)
    (hop : ∀ token : Token, ∀ text, token.Gives scanner instr.op text → token.Gives scanner op text) :
    (code.setOp index op).Sourced scanner tokens := by
  intro other found hfound
  obtain ⟨old, hold, hlen, hpos, hne, hself⟩ := instr?_setOp hfound
  obtain ⟨hfits, offset, hoffset, token, hmem, hstart, hgives⟩ := h other old hold
  rw [size_setOp, hlen, hpos, textAt?_setOp op other hinstr]
  refine ⟨hfits, offset, hoffset, token, hmem, hstart, ?_⟩
  by_cases he : other = index
  · subst he
    obtain rfl := Option.some.inj (hinstr.symm.trans hold)
    rw [hself rfl]
    exact hop token _ hgives
  · rw [hne he]
    exact hgives

theorem Sourced.withTarget {code : Code} (h : code.Sourced scanner tokens) {index target : Nat}
    {instr : Instr} {op : Op} (hinstr : code.instr? index = some instr)
    (hop : instr.op.withTarget? target = some op) :
    (code.setOp index op).Sourced scanner tokens :=
  h.setOp hinstr fun token text _ =>
    token.gives_of_isBranch scanner text (Op.withTarget?_eq_some hop).2.1

theorem Sourced.thread {code : Code} (h : code.Sourced scanner tokens) :
    code.thread.1.Sourced scanner tokens := by
  refine thread_induction (motive := fun code => code.Sourced scanner tokens) ?_ code h
  intro code index next hsourced hnext
  obtain ⟨jump, -, -, op, hjump, -, -, -, -, -, hop, heq⟩ := shortcut?_eq_some hnext
  rw [heq]
  exact hsourced.withTarget hjump hop

end Code

namespace Assembly

variable {a : Assembly} (h : a.code.Sourced scanner tokens) {limit pos : Nat}

include h

theorem append_sourced {op : Op} {chunks : List Chunk}
    (hnew : Allows scanner tokens pos op (payloadText? (chunks.map .text))) :
    Reports tokens (fun b => b.code.Sourced scanner tokens)
      (a.append limit (Code.block ⟨op, 1 + chunks.length, .ofNat pos⟩ chunks) pos) := by
  unfold append
  split
  · exact .error hnew.isTokenStart.isReported
  · exact .ok (h.append rfl rfl hnew)

theorem emit_sourced {op : Op} (hnew : Allows scanner tokens pos op none) :
    Reports tokens (fun b => b.code.Sourced scanner tokens) (a.emit limit op pos) :=
  @append_sourced _ _ _ h _ _ op [] hnew

theorem emitText_sourced {op : Op} {text : List Char}
    (hnew : Allows scanner tokens pos op (some (beforeZero text))) :
    Reports tokens (fun b => b.code.Sourced scanner tokens) (a.emitText limit op text pos) := by
  refine append_sourced h ?_
  have hpayload := payloadText?_textChunks text []
  rw [List.append_nil] at hpayload
  rw [hpayload]
  exact hnew

theorem patch_sourced (index : Nat) :
    Reports tokens (fun b => b.code.Sourced scanner tokens) (a.patch index) := by
  unfold patch
  split
  · exact .error (Or.inl rfl)
  · rename_i instr hinstr
    split
    · rename_i op hop
      exact .ok (h.withTarget hinstr hop)
    · exact .notABranch

theorem pointerize_sourced (hpos : IsTokenStart tokens pos) :
    Reports tokens (fun b => b.code.Sourced scanner tokens) (a.pointerize pos) := by
  unfold pointerize
  split
  · exact .error hpos.isReported
  · split
    · exact .error hpos.isReported
    · rename_i instr hinstr
      split
      · rename_i pointer hpointer
        exact .ok (h.setOp hinstr fun token text hgives => hgives.pointerForm hpointer)
      · exact .error hpos.isReported
      · exact .error hpos.isReported

theorem step_sourced (op : Operator) (hpos : IsTokenStart tokens pos) :
    Reports tokens (fun b => b.code.Sourced scanner tokens)
      (a.pointerize pos >>= fun b => b.emit limit (.incDec op) pos) :=
  (pointerize_sourced h hpos).bind fun _ hb => emit_sourced hb (hpos.allows fun _ => trivial)

end Assembly

theorem Pending.apply_sourced {a : Assembly} (h : a.code.Sourced scanner tokens) {limit : Nat}
    {p : Pending} (hpos : IsTokenStart tokens p.pos) :
    Reports tokens (fun b => b.code.Sourced scanner tokens) (p.apply limit a) := by
  unfold Pending.apply
  split
  · exact Assembly.emit_sourced h (hpos.allows fun _ => trivial)
  · exact Assembly.step_sourced h _ hpos
  · exact Assembly.step_sourced h _ hpos
  · exact Assembly.emit_sourced h (hpos.allows fun _ => trivial)
  · have hbool : Allows scanner tokens _ .makeBool none := hpos.allows fun _ => trivial
    exact (Assembly.emit_sourced h hbool).bind fun b hb => Assembly.patch_sourced hb _
  · exact Assembly.emit_sourced h (hpos.allows fun _ => trivial)
  · exact (Assembly.patch_sourced h _).bind fun b hb => .ok hb
  · exact Assembly.emit_sourced h (hpos.allows fun _ => trivial)

theorem reduceWhile_sourced {a : Assembly} (h : a.code.Sourced scanner tokens) {limit : Nat}
    (yields : Pending → Bool) {stack : List Entry}
    (hstack : ∀ entry ∈ stack, IsTokenStart tokens entry.pos) :
    Reports tokens (fun answer : List Entry × Assembly => answer.2.code.Sourced scanner tokens ∧
      ∀ entry ∈ answer.1, IsTokenStart tokens entry.pos) (reduceWhile limit yields stack a) := by
  induction stack generalizing a with
  | nil => exact .ok ⟨h, hstack⟩
  | cons entry rest ih =>
      cases entry with
      | barrier b => exact .ok ⟨h, hstack⟩
      | pending p =>
          obtain ⟨hpending, hrest⟩ := List.forall_mem_cons.mp hstack
          rw [reduceWhile]
          split
          · exact (Pending.apply_sourced h hpending).bind fun b hb => ih hb hrest
          · exact .ok ⟨h, hstack⟩

namespace Compiler

variable {limits : Limits} {c : Compiler} (h : c.Sourced scanner tokens) {pos : Nat}

include h

theorem Sourced.top {entry : Entry} {rest : List Entry} (hstack : c.stack = entry :: rest) :
    IsTokenStart tokens entry.pos ∧ ∀ other ∈ rest, IsTokenStart tokens other.pos :=
  List.forall_mem_cons.mp (hstack ▸ h.stack)

theorem push_sourced {entry : Entry} (hpos : IsTokenStart tokens entry.pos) :
    Reports tokens (Sourced scanner tokens) (c.push limits entry) := by
  unfold push
  split
  · exact .error hpos.isReported
  · exact .ok ⟨h.code, List.forall_mem_cons.mpr ⟨hpos, h.stack⟩⟩

theorem emit_sourced {op : Op} (hnew : Allows scanner tokens pos op none) :
    Reports tokens (Sourced scanner tokens) (c.emit limits op pos) :=
  (Assembly.emit_sourced h.code hnew).bind fun _ houtput => .ok ⟨houtput, h.stack⟩

theorem emitText_sourced {op : Op} {text : List Char}
    (hnew : Allows scanner tokens pos op (some (beforeZero text))) :
    Reports tokens (Sourced scanner tokens) (c.emitText limits op text pos) :=
  (Assembly.emitText_sourced h.code hnew).bind fun _ houtput => .ok ⟨houtput, h.stack⟩

theorem pointerize_sourced (hpos : IsTokenStart tokens pos) :
    Reports tokens (Sourced scanner tokens) (c.pointerize pos) :=
  (Assembly.pointerize_sourced h.code hpos).bind fun _ houtput => .ok ⟨houtput, h.stack⟩

theorem reduce_sourced (yields : Pending → Bool) :
    Reports tokens (Sourced scanner tokens) (c.reduce limits yields) :=
  (reduceWhile_sourced h.code yields h.stack).bind fun _ hanswer => .ok ⟨hanswer.1, hanswer.2⟩

theorem flush_sourced : Reports tokens (Sourced scanner tokens) (c.flush limits) :=
  reduce_sourced h _

variable (hpos : IsTokenStart tokens pos)

include hpos

theorem binary_sourced (op : Operator) :
    Reports tokens (Sourced scanner tokens) (c.binary limits op pos) := by
  refine (reduce_sourced h _).bind fun after hafter => ?_
  cases op with
  | collect => exact .ok hafter
  | logicalAnd | logicalOr =>
      refine (emit_sourced hafter (hpos.allows_branch rfl)).bind fun later hlater => ?_
      exact push_sourced hlater hpos
  | _ => exact push_sourced hafter hpos

theorem question_sourced : Reports tokens (Sourced scanner tokens) (c.question limits pos) := by
  refine (reduce_sourced h _).bind fun after hafter => ?_
  refine (emit_sourced hafter (hpos.allows_branch rfl)).bind fun later hlater => ?_
  exact push_sourced hlater hpos

theorem colon_sourced : Reports tokens (Sourced scanner tokens) (c.colon limits pos) := by
  refine (flush_sourced h).bind fun after hafter => ?_
  split
  · rename_i rest hstack
    have hrest := (hafter.top hstack).2
    have hgoto : Allows scanner tokens pos (.goto none) none := hpos.allows_branch rfl
    refine (Assembly.emit_sourced hafter.code hgoto).bind fun output houtput => ?_
    refine (Assembly.patch_sourced houtput _).bind fun patched hpatched => ?_
    exact push_sourced ⟨hpatched, hrest⟩ hpos
  · exact .error hpos.isReported

theorem openGroup_sourced (group : Group) :
    Reports tokens (Sourced scanner tokens) (c.openGroup limits group pos) := by
  unfold openGroup
  split
  · exact (reduce_sourced h _).bind fun after hafter => push_sourced hafter hpos
  · exact (reduce_sourced h _).bind fun after hafter => push_sourced hafter hpos
  · exact push_sourced h hpos

theorem finish_sourced : Reports tokens (Sourced scanner tokens) (c.finish limits pos) := by
  refine (flush_sourced h).bind fun after hafter => ?_
  split
  · exact emit_sourced hafter (hpos.allows fun _ => trivial)
  · rename_i hstack
    exact .error (hafter.top hstack).1.isReported
  · rename_i hstack
    exact .error (hafter.top hstack).1.isReported

omit hpos in
theorem belowBracket_sourced (group : Group) {token : Token} (hmem : token ∈ tokens) :
    Reports tokens (fun below : List Entry => ∀ entry ∈ below, IsTokenStart tokens entry.pos)
      (c.belowBracket group token) := by
  have hpos : IsTokenStart tokens token.start := ⟨token, hmem, rfl⟩
  unfold belowBracket
  split
  · rename_i hstack
    exact .error (h.top hstack).1.isReported
  · rename_i rest hstack
    split
    · exact .ok (h.top hstack).2
    · exact .error hpos.isReported
  · exact .error hpos.isReported

omit hpos in
theorem closeGroup_sourced (found : Closing) {token : Token} (hmem : token ∈ tokens) :
    Reports tokens (Sourced scanner tokens) (c.closeGroup limits found token) := by
  have hpos : IsTokenStart tokens token.start := ⟨token, hmem, rfl⟩
  refine (flush_sourced h).bind fun after hafter => ?_
  refine (belowBracket_sourced hafter _ hmem).bind fun below hbelow => ?_
  have hopen : Sourced scanner tokens { after with stack := below } := ⟨hafter.code, hbelow⟩
  cases found with
  | subExpr => exact .ok hopen
  | call | list | dict | subscript => exact emit_sourced hopen (hpos.allows fun _ => trivial)
  | substArgs items =>
      dsimp only
      split
      · rename_i rest
        have hrest : Sourced scanner tokens { after with stack := rest } :=
          ⟨hafter.code, (List.forall_mem_cons.mp hbelow).2⟩
        exact emit_sourced hrest (hpos.allows fun _ => trivial)
      · exact .error hpos.isReported

omit h hpos in
theorem stringValue_reports {token : Token} (hmem : token ∈ tokens) (verbatim : Bool) :
    Reports tokens (fun value => stringValue token verbatim = .ok value)
      (stringValue token verbatim) := by
  have hpos : IsTokenStart tokens token.start := ⟨token, hmem, rfl⟩
  cases hvalue : stringValue token verbatim with
  | ok value => exact .ok rfl
  | error e =>
      have hzero : ∀ value : List Char, (if token.text.contains '\x00' then
          .error ⟨token.start + byteLength (token.text.takeWhile (· ≠ '\x00')), .fault .nulCharacter⟩
          else .ok value : Except CompileError (List Char)) = .error e →
          IsReported tokens e.offset := by
        intro value hvalue
        split at hvalue
        · cases hvalue
          exact Or.inr ⟨token, hmem, _, _, List.takeWhile_append_dropWhile.symm, rfl⟩
        · cases hvalue
      refine .error ?_
      cases verbatim with
      | true => exact hzero token.text hvalue
      | false =>
          unfold stringValue at hvalue
          simp only [Bool.false_eq_true, if_false] at hvalue
          split at hvalue
          · rename_i literal _
            exact hzero literal.decode hvalue
          · cases hvalue
            exact hpos.isReported

omit hpos in
-- What a token adds to the code is made for it, or for an operator that waited on the stack.
theorem step_sourced {token : Token} (hmem : token ∈ tokens) :
    Reports tokens (Sourced scanner tokens) (c.step scanner limits token) := by
  have hpos : IsTokenStart tokens token.start := ⟨token, hmem, rfl⟩
  unfold step
  dsimp only
  split
  · rename_i hform
    split
    · rename_i value width hscan
      exact emit_sourced h ⟨token, hmem, rfl, hform, width, hscan⟩
    · exact .error hpos.isReported
  · rename_i verbatim hform
    refine (stringValue_reports hmem verbatim).bind fun value hvalue => emitText_sourced h ?_
    exact ⟨token, hmem, rfl, Or.inl ⟨verbatim, value, hform, hvalue, rfl⟩⟩
  · rename_i hform
    exact emitText_sourced h ⟨token, hmem, rfl, hform, rfl⟩
  · rename_i hform
    exact emitText_sourced h ⟨token, hmem, rfl, hform, rfl⟩
  · rename_i hform
    exact emitText_sourced h ⟨token, hmem, rfl, Or.inr ⟨hform, rfl⟩⟩
  · exact reduce_sourced h _
  · exact push_sourced h hpos
  · exact (reduce_sourced h _).bind fun after hafter => push_sourced hafter hpos
  · exact (reduce_sourced h _).bind fun after hafter => push_sourced hafter hpos
  · exact (pointerize_sourced h hpos).bind fun after hafter =>
      emit_sourced hafter (hpos.allows fun _ => trivial)
  · exact binary_sourced h hpos _
  · exact binary_sourced h hpos _
  · exact question_sourced h hpos
  · exact colon_sourced h hpos
  · exact reduce_sourced h _
  · refine (reduce_sourced h _).bind fun mid hmid => ?_
    exact (pointerize_sourced hmid hpos).bind fun after hafter => push_sourced hafter hpos
  · exact openGroup_sourced h hpos _
  · exact closeGroup_sourced h _ hmem
  · refine (flush_sourced h).bind fun after hafter => ?_
    exact (belowBracket_sourced hafter _ hmem).bind fun _ _ => .ok hafter
  · exact finish_sourced h hpos

omit hpos in
theorem foldlM_sourced {rest : List Token} (hrest : ∀ token ∈ rest, token ∈ tokens) :
    Reports tokens (Sourced scanner tokens) (rest.foldlM (step scanner limits) c) := by
  induction rest generalizing c with
  | nil => exact .ok h
  | cons token rest ih =>
      obtain ⟨htoken, hrest⟩ := List.forall_mem_cons.mp hrest
      rw [List.foldlM_cons]
      exact (step_sourced h htoken).bind fun after hafter => ih hafter hrest

end Compiler

theorem assemble_sourced (limits : Limits) :
    Reports tokens (Code.Sourced scanner tokens) (assemble scanner limits tokens) := by
  have hstart : Compiler.start.Sourced scanner tokens := by
    constructor
    · intro index instr hinstr
      cases hinstr
    · intro entry hentry
      cases hentry
  exact (Compiler.foldlM_sourced hstart fun token hmem => hmem).bind fun c hc => .ok hc.code

theorem isReported_of_assemble {limits : Limits} {e : CompileError}
    (h : assemble scanner limits tokens = .error e) :
    (∃ op, e.cause = .breach (.notABranch op)) ∨ IsReported tokens e.offset :=
  (assemble_sourced limits).2 e h

end FormulaCode
