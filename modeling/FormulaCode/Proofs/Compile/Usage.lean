import FormulaCode.Proofs.Compile.Invariant
import FormulaCode.Proofs.Compile.Limits
import FormulaCode.Proofs.Token.Nesting

namespace FormulaCode

-- Code only grows in a run that begins with so many records, and the bound on records is exact: a
-- result that the run gives under some limits it gives under all others that have room for it.
def Metered (before : Nat) (size : α → Nat) (run : Limits → Except CompileError α) : Prop :=
  ∀ limits a, run limits = .ok a → before ≤ size a ∧
    (before ≤ limits.maxRecords → size a ≤ limits.maxRecords) ∧
    ∀ other : Limits, size a ≤ other.maxRecords → run other = .ok a

namespace Metered

variable {before : Nat} {size : α → Nat}

theorem const {result : Except CompileError α} (h : ∀ a, result = .ok a → size a = before) :
    Metered before size fun _ => result := by
  intro limits a ha
  rw [h a ha]
  exact ⟨Nat.le_refl _, id, fun _ _ => ha⟩

theorem bind {run : Limits → Except CompileError α} {next : α → Limits → Except CompileError β}
    {later : β → Nat} (h : Metered before size run) (hnext : ∀ a, Metered (size a) later (next a)) :
    Metered before later fun limits => run limits >>= fun a => next a limits := by
  intro limits b hb
  obtain ⟨a, ha, hlater⟩ := bind_eq_ok hb
  obtain ⟨hgrows, hbound, hrun⟩ := h limits a ha
  obtain ⟨hgrows', hbound', hrun'⟩ := hnext a limits b hlater
  refine ⟨Nat.le_trans hgrows hgrows', fun hle => hbound' (hbound hle), fun other hother => ?_⟩
  change (run other >>= fun a => next a other) = .ok b
  rw [hrun other (Nat.le_trans hgrows' hother)]
  exact hrun' other hother

end Metered

def Assembly.size (a : Assembly) : Nat :=
  a.code.size

section Assembly

variable (a : Assembly)

theorem Assembly.append_metered (records : List Record) (pos : Nat) :
    Metered a.size Assembly.size fun limits => a.append limits.maxRecords records pos := by
  intro limits b hb
  have happend : ¬limits.maxRecords < a.code.size + records.length ∧
      b = ⟨⟨a.code.records ++ records⟩, some a.code.size⟩ := by
    simp only [append] at hb
    split at hb
    · cases hb
    · rename_i hroom
      cases hb
      exact ⟨hroom, rfl⟩
  obtain ⟨hroom, rfl⟩ := happend
  have hsize : Assembly.size ⟨⟨a.code.records ++ records⟩, some a.code.size⟩ =
      a.code.size + records.length := Code.size_append ..
  rw [hsize]
  refine ⟨Nat.le_add_right _ _, fun _ => Nat.le_of_not_lt hroom, fun other hother => ?_⟩
  simp only [append]
  rw [if_neg (Nat.not_lt_of_le hother)]

theorem Assembly.emit_metered (op : Op) (pos : Nat) :
    Metered a.size Assembly.size fun limits => a.emit limits.maxRecords op pos :=
  a.append_metered _ pos

theorem Assembly.patch_metered (index : Nat) :
    Metered a.size Assembly.size fun _ => a.patch index := by
  refine .const fun b hb => ?_
  simp only [patch] at hb
  split at hb
  · cases hb
  · split at hb <;> cases hb
    exact Code.size_setOp ..

theorem Assembly.pointerize_metered (pos : Nat) :
    Metered a.size Assembly.size fun _ => a.pointerize pos := by
  refine .const fun b hb => ?_
  simp only [pointerize] at hb
  split at hb
  · cases hb
  · split at hb
    · cases hb
    · split at hb <;> cases hb
      exact Code.size_setOp ..

theorem Pending.apply_metered (p : Pending) :
    Metered a.size Assembly.size fun limits => p.apply limits.maxRecords a := by
  cases p with
  | operator op pos =>
      cases op with
      | preIncrement | preDecrement =>
          exact (a.pointerize_metered pos).bind fun a => a.emit_metered _ pos
      | _ => exact a.emit_metered _ pos
  | logical op pos branch => exact (a.emit_metered _ pos).bind fun a => a.patch_metered branch
  | assign op pos => exact a.emit_metered _ pos
  | colon pos goto =>
      exact (a.patch_metered goto).bind fun b => .const (by rintro _ ⟨⟩; rfl)
  | dollar pos => exact a.emit_metered _ pos

end Assembly

namespace Compiler

def size (c : Compiler) : Nat :=
  c.output.size

-- The limits have room for the code so far and for what is on the stack.
structure Fits (limits : Limits) (c : Compiler) : Prop where
  records : c.size ≤ limits.maxRecords
  stack : c.stack.length ≤ limits.maxStackDepth

-- A run that puts nothing on the stack.
def Sinks (c : Compiler) (run : Limits → Except CompileError Compiler) : Prop :=
  Metered c.size size run ∧ ∀ limits after, run limits = .ok after →
    after.stack.length ≤ c.stack.length

-- A run whose limits are exact. It goes on from a compiler that fits to one that fits, and what it
-- gives under some limits it gives under all others into which the result fits.
def Spends (c : Compiler) (run : Limits → Except CompileError Compiler) : Prop :=
  ∀ limits after, run limits = .ok after → c.size ≤ after.size ∧
    (c.Fits limits → after.Fits limits) ∧ ∀ other, after.Fits other → run other = .ok after

variable {c : Compiler}

theorem Sinks.spends {run : Limits → Except CompileError Compiler} (h : c.Sinks run) :
    c.Spends run := by
  intro limits after hafter
  obtain ⟨hgrows, hbound, hrun⟩ := h.1 limits after hafter
  refine ⟨hgrows, fun hfits => ⟨hbound hfits.records, ?_⟩, fun other hother => hrun other hother.1⟩
  exact Nat.le_trans (h.2 limits after hafter) hfits.stack

theorem Sinks.bind {run : Limits → Except CompileError Compiler}
    {next : Compiler → Limits → Except CompileError Compiler} (h : c.Sinks run)
    (hnext : ∀ mid : Compiler, mid.Sinks (next mid)) :
    c.Sinks fun limits => run limits >>= fun mid => next mid limits := by
  refine ⟨h.1.bind fun mid => (hnext mid).1, fun limits after hafter => ?_⟩
  obtain ⟨mid, hmid, hlater⟩ := bind_eq_ok hafter
  exact Nat.le_trans ((hnext mid).2 limits after hlater) (h.2 limits mid hmid)

-- Entries only come off the stack before one is put on it.
theorem Sinks.bind_spends {run : Limits → Except CompileError Compiler}
    {next : Compiler → Limits → Except CompileError Compiler} (h : c.Sinks run)
    (hnext : ∀ mid : Compiler, mid.Spends (next mid)) :
    c.Spends fun limits => run limits >>= fun mid => next mid limits := by
  intro limits after hafter
  obtain ⟨mid, hmid, hlater⟩ := bind_eq_ok hafter
  obtain ⟨hgrows, hfits, hrun⟩ := hnext mid limits after hlater
  obtain ⟨hgrows', hfits', -⟩ := h.spends limits mid hmid
  refine ⟨Nat.le_trans hgrows' hgrows, fun hc => hfits (hfits' hc), fun other hother => ?_⟩
  have hroom : mid.size ≤ other.maxRecords := Nat.le_trans hgrows hother.records
  simp only [(h.1 limits mid hmid).2.2 other hroom]
  exact hrun other hother

theorem sinks_const {result : Except CompileError Compiler}
    (h : ∀ after, result = .ok after → after.size = c.size ∧
      after.stack.length ≤ c.stack.length) : c.Sinks fun _ => result :=
  ⟨.const fun after hafter => (h after hafter).1, fun _ after hafter => (h after hafter).2⟩

theorem sinks_error {e : CompileError} : c.Sinks fun _ => .error e := by
  refine sinks_const ?_
  rintro _ ⟨⟩

theorem sinks_of_ok {result : Except CompileError α}
    {next : α → Limits → Except CompileError Compiler}
    (h : ∀ a, result = .ok a → c.Sinks (next a)) :
    c.Sinks fun limits => result >>= fun a => next a limits := by
  cases result with
  | error e => exact sinks_error
  | ok a => exact h a rfl

theorem Sinks.of_stack {below : List Entry} {run : Limits → Except CompileError Compiler}
    (h : Sinks { c with stack := below } run) (hbelow : below.length ≤ c.stack.length) :
    c.Sinks run :=
  ⟨h.1, fun limits after hafter => Nat.le_trans (h.2 limits after hafter) hbelow⟩

theorem Spends.of_stack {below : List Entry} {run : Limits → Except CompileError Compiler}
    (h : Spends { c with stack := below } run) (hbelow : below.length ≤ c.stack.length) :
    c.Spends run := by
  intro limits after hafter
  obtain ⟨hgrows, hfits, hrun⟩ := h limits after hafter
  exact ⟨hgrows, fun hc => hfits ⟨hc.records, Nat.le_trans hbelow hc.stack⟩, hrun⟩

-- What is done to the code alone.
theorem sinks_output {run : Limits → Except CompileError Assembly}
    (h : Metered c.output.size Assembly.size run) :
    c.Sinks fun limits => do return { c with output := ← run limits } := by
  refine ⟨h.bind fun a => .const ?_, fun limits after hafter => ?_⟩
  · rintro _ ⟨⟩
    rfl
  · obtain ⟨a, -, ⟨⟩⟩ := bind_eq_ok hafter
    exact Nat.le_refl _

theorem spends_output {run : Limits → Except CompileError Assembly}
    {next : Assembly → Limits → Except CompileError Compiler}
    (h : Metered c.output.size Assembly.size run)
    (hnext : ∀ output, Spends { c with output } (next output)) :
    c.Spends fun limits => run limits >>= fun output => next output limits := by
  intro limits after hafter
  obtain ⟨output, houtput, hlater⟩ := bind_eq_ok hafter
  obtain ⟨hgrows, hfits, hnext⟩ := hnext output limits after hlater
  obtain ⟨hgrows', hroom, hrun⟩ := h limits output houtput
  refine ⟨Nat.le_trans hgrows' hgrows, fun hc => hfits ⟨hroom hc.records, hc.stack⟩,
    fun other hother => ?_⟩
  simp only [hrun other (Nat.le_trans hgrows hother.records)]
  exact hnext other hother

theorem emit_sinks (c : Compiler) (op : Op) (pos : Nat) :
    c.Sinks fun limits => c.emit limits op pos :=
  sinks_output (c.output.emit_metered op pos)

theorem emitText_sinks (c : Compiler) (op : Op) (text : List Char) (pos : Nat) :
    c.Sinks fun limits => c.emitText limits op text pos :=
  sinks_output (c.output.append_metered _ pos)

theorem pointerize_sinks (c : Compiler) (pos : Nat) : c.Sinks fun _ => c.pointerize pos :=
  sinks_output (c.output.pointerize_metered pos)

theorem reduceWhile_metered (yields : Pending → Bool) (stack : List Entry) (a : Assembly) :
    Metered a.size (fun result : List Entry × Assembly => result.2.size)
        (fun limits => reduceWhile limits.maxRecords yields stack a) ∧
      ∀ limits result, reduceWhile limits yields stack a = .ok result →
        result.1.length ≤ stack.length := by
  induction stack generalizing a with
  | nil => exact ⟨.const (by rintro _ ⟨⟩; rfl), by rintro _ _ ⟨⟩; exact Nat.le_refl _⟩
  | cons entry rest ih =>
      cases entry with
      | barrier b => exact ⟨.const (by rintro _ ⟨⟩; rfl), by rintro _ _ ⟨⟩; exact Nat.le_refl _⟩
      | pending p =>
          simp only [reduceWhile]
          split
          · refine ⟨(p.apply_metered a).bind fun b => (ih b).1, fun limits result hresult => ?_⟩
            obtain ⟨b, -, hrest⟩ := bind_eq_ok hresult
            exact Nat.le_succ_of_le ((ih b).2 limits result hrest)
          · exact ⟨.const (by rintro _ ⟨⟩; rfl), by rintro _ _ ⟨⟩; exact Nat.le_refl _⟩

theorem reduce_sinks (c : Compiler) (yields : Pending → Bool) :
    c.Sinks fun limits => c.reduce limits yields := by
  obtain ⟨hmetered, hstack⟩ := reduceWhile_metered yields c.stack c.output
  refine ⟨hmetered.bind fun result => .const ?_, fun limits after hafter => ?_⟩
  · rintro _ ⟨⟩
    rfl
  · obtain ⟨result, hresult, ⟨⟩⟩ := bind_eq_ok hafter
    exact hstack _ _ hresult

theorem push_spends (c : Compiler) (entry : Entry) :
    c.Spends fun limits => c.push limits entry := by
  intro limits after hafter
  have hstack : after = { c with stack := entry :: c.stack } ∧
      ¬limits.maxStackDepth ≤ c.stack.length := by
    simp only [push] at hafter
    split at hafter
    · cases hafter
    · rename_i hroom
      cases hafter
      exact ⟨rfl, hroom⟩
  obtain ⟨rfl, hroom⟩ := hstack
  refine ⟨Nat.le_refl _, fun hfits => ⟨hfits.records, ?_⟩, fun other hother => ?_⟩
  · rw [List.length_cons]
    omega
  · have hother := hother.stack
    rw [List.length_cons] at hother
    simp only [push]
    rw [if_neg (by omega)]

theorem binary_spends (c : Compiler) (op : Operator) (pos : Nat) :
    c.Spends fun limits => c.binary limits op pos := by
  refine (c.reduce_sinks _).bind_spends fun c => ?_
  cases op with
  | collect => exact (sinks_const (by rintro _ ⟨⟩; exact ⟨rfl, Nat.le_refl _⟩)).spends
  | logicalAnd | logicalOr => exact (c.emit_sinks _ pos).bind_spends fun c => c.push_spends _
  | _ => exact c.push_spends _

theorem question_spends (c : Compiler) (pos : Nat) :
    c.Spends fun limits => c.question limits pos :=
  (c.reduce_sinks _).bind_spends fun c => (c.emit_sinks _ pos).bind_spends fun c => c.push_spends _

theorem colon_spends (c : Compiler) (pos : Nat) : c.Spends fun limits => c.colon limits pos := by
  refine (c.reduce_sinks _).bind_spends fun c => ?_
  split
  · rename_i _ branch rest hstack
    have hrest : rest.length ≤ c.stack.length := by
      rw [hstack]
      exact Nat.le_succ _
    refine Spends.of_stack ?_ hrest
    refine spends_output (c.output.emit_metered _ pos) fun output => ?_
    exact spends_output (output.patch_metered branch) fun output => push_spends _ _
  · exact sinks_error.spends

theorem belowBracket_length {group : Group} {token : Token} {below : List Entry}
    (h : c.belowBracket group token = .ok below) : below.length ≤ c.stack.length := by
  unfold belowBracket at h
  split at h
  · cases h
  · rename_i opened _ rest hstack
    split at h
    · cases h
      rw [hstack]
      exact Nat.le_succ _
    · cases h
  · cases h

theorem openGroup_spends (c : Compiler) (group : Group) (pos : Nat) :
    c.Spends fun limits => c.openGroup limits group pos := by
  cases group with
  | call | subscript => exact (c.reduce_sinks _).bind_spends fun c => c.push_spends _
  | _ => exact c.push_spends _

theorem finish_spends (c : Compiler) (pos : Nat) : c.Spends fun limits => c.finish limits pos := by
  refine ((c.reduce_sinks _).bind fun c => ?_).spends
  split
  · exact c.emit_sinks _ pos
  · exact sinks_error
  · exact sinks_error

theorem closeGroup_sinks (c : Compiler) (found : Closing) (token : Token) :
    c.Sinks fun limits => c.closeGroup limits found token := by
  refine (c.reduce_sinks _).bind fun c => sinks_of_ok fun below hbelow => ?_
  refine Sinks.of_stack ?_ (belowBracket_length hbelow)
  cases found with
  | subExpr => exact sinks_const (by rintro _ ⟨⟩; exact ⟨rfl, Nat.le_refl _⟩)
  | call | list | dict | subscript => exact emit_sinks _ _ _
  | substArgs items =>
      dsimp only
      split
      · rename_i rest
        exact Sinks.of_stack (emit_sinks { c with stack := rest } _ _) (Nat.le_succ _)
      · exact sinks_error

-- The bounds on the records and on the stack are exact in each step.
theorem step_spends (scanner : NumberScanner) (c : Compiler) (token : Token) :
    c.Spends fun limits => c.step scanner limits token := by
  unfold step
  cases token.form with
  | number =>
      dsimp only
      split
      · exact (c.emit_sinks _ _).spends
      · exact sinks_error.spends
  | string verbatim => exact (sinks_of_ok fun _ _ => c.emitText_sinks _ _ _).spends
  | name | memberName | dollarName => exact (c.emitText_sinks _ _ _).spends
  | dot => exact (c.reduce_sinks _).spends
  | dollar => exact c.push_spends _
  | unary op | stepBefore op => exact (c.reduce_sinks _).bind_spends fun c => c.push_spends _
  | stepAfter op => exact ((c.pointerize_sinks _).bind fun c => c.emit_sinks _ _).spends
  | substitute | binary op => exact c.binary_spends _ _
  | ternary mark =>
      cases mark with
      | question => exact c.question_spends _
      | colon => exact c.colon_spends _
      | pair => exact (c.reduce_sinks _).spends
  | assign op =>
      exact (c.reduce_sinks _).bind_spends fun c =>
        (c.pointerize_sinks _).bind_spends fun c => c.push_spends _
  | opening group => exact c.openGroup_spends _ _
  | closing found => exact (c.closeGroup_sinks _ _).spends
  | sliceMark =>
      refine ((c.reduce_sinks _).bind fun c => sinks_of_ok fun _ _ => sinks_const ?_).spends
      rintro _ ⟨⟩
      exact ⟨rfl, Nat.le_refl _⟩
  | finish items => exact c.finish_spends _

-- All tokens of a formula. Between two of them the stack is as high as it ever is, as an entry is
-- put on it only at the end of a step.
theorem foldlM_spends {scanner : NumberScanner} {limits : Limits} {tokens : List Token}
    {after : Compiler} (h : tokens.foldlM (step scanner limits) c = .ok after) :
    c.size ≤ after.size ∧ (c.Fits limits → after.Fits limits) ∧
      ∀ other : Limits, after.size ≤ other.maxRecords →
        (∀ before mid, before <+: tokens → before.foldlM (step scanner limits) c = .ok mid →
          mid.stack.length ≤ other.maxStackDepth) →
        tokens.foldlM (step scanner other) c = .ok after := by
  induction tokens generalizing c with
  | nil =>
      cases h
      exact ⟨Nat.le_refl _, id, fun _ _ _ => rfl⟩
  | cons token tokens ih =>
      rw [List.foldlM_cons] at h
      obtain ⟨mid, hmid, hlater⟩ := bind_eq_ok h
      obtain ⟨hgrows, hfits, hstep⟩ := c.step_spends scanner token limits mid hmid
      obtain ⟨hgrows', hfits', hrest⟩ := ih hlater
      refine ⟨Nat.le_trans hgrows hgrows', fun hc => hfits' (hfits hc), ?_⟩
      intro other hrecords hstack
      have hroom : mid.Fits other := by
        refine ⟨Nat.le_trans hgrows' hrecords, hstack [token] mid ⟨tokens, rfl⟩ ?_⟩
        rw [List.foldlM_cons, hmid]
        rfl
      have hstep : c.step scanner other token = .ok mid := hstep other hroom
      rw [List.foldlM_cons, hstep]
      refine hrest other hrecords fun before mid' hbefore hmid' => ?_
      refine hstack (token :: before) mid' (List.cons_prefix_cons.mpr ⟨rfl, hbefore⟩) ?_
      rw [List.foldlM_cons, hmid]
      exact hmid'

-- The limits say only whether a state is reached.
theorem foldlM_unique {scanner : NumberScanner} {limits other : Limits} {tokens : List Token}
    {after after' : Compiler} (h : tokens.foldlM (step scanner limits) c = .ok after)
    (h' : tokens.foldlM (step scanner other) c = .ok after') : after = after' := by
  obtain ⟨wide, hle, hle'⟩ := limits.exists_wide other
  have hwide := (Extends.foldlM (step_extends hle scanner) tokens c).eq_ok h
  have hwide' := (Extends.foldlM (step_extends hle' scanner) tokens c).eq_ok h'
  rw [hwide] at hwide'
  cases hwide'
  rfl

end Compiler

-- The limits have room for all that becomes of these tokens: the tokens, the records of the code,
-- what is on the stack between any two tokens, and the groups whose insides are open at once.
structure Limits.Allow (limits : Limits) (scanner : NumberScanner) (tokens : List Token)
    (code : Code) : Prop where
  length : tokens.length ≤ limits.maxTokens
  records : code.size ≤ limits.maxRecords
  stack : ∀ (any : Limits) (before : List Token) (c : Compiler), before <+: tokens →
    before.foldlM (Compiler.step scanner any) Compiler.start = .ok c →
    c.stack.length ≤ limits.maxStackDepth
  nesting : nesting tokens ≤ limits.maxNesting

theorem assemble_eq_ok {scanner : NumberScanner} {limits : Limits} {tokens : List Token}
    {code : Code} (h : assemble scanner limits tokens = .ok code) :
    ∃ c, tokens.foldlM (Compiler.step scanner limits) Compiler.start = .ok c ∧
      c.output.code = code := by
  obtain ⟨c, hrun, ⟨⟩⟩ := bind_eq_ok h
  exact ⟨c, hrun, rfl⟩

section Compile

variable {scanner : NumberScanner} {options : Options} {text : String} {line sourceId : Nat}
  {file : String}

-- Wider limits change nothing but the failure to stay within the old ones.
theorem compile_extends {wide : Limits} (hle : options.limits ≤ wide) :
    Extends CompileError.IsOverflow (compile scanner options text line sourceId file)
      (compile scanner { options with limits := wide } text line sourceId file) := by
  have hdepth : (options.setup scanner).maxDepth = some options.limits.maxNesting := rfl
  have htokens := tokenize_extends hdepth hle.2.2.2 hle.1 text.toList
  unfold compile
  rcases htokens with hsame | ⟨e, he, hoverflow⟩
  · have hsame : tokenize ({ options with limits := wide }.setup scanner) (some wide.maxTokens)
        text.toList =
        tokenize (options.setup scanner) (some options.limits.maxTokens) text.toList := hsame
    simp only [hsame]
    cases tokenize (options.setup scanner) (some options.limits.maxTokens) text.toList with
    | error e => exact .refl _
    | ok tokenized => exact (assemble_extends hle scanner tokenized.tokens).bind fun _ => .refl _
  · obtain ⟨resource, limit, hcause⟩ := hoverflow
    refine Or.inr ⟨e.toCompileError, ?_, resource, limit, ?_⟩
    · rw [he]
      rfl
    · simp only [LexError.toCompileError, hcause]

-- What is compiled within limits keeps to them.
theorem compile_allowed {formula : CompiledFormula} {stop : Nat}
    (h : compile scanner options text line sourceId file = .ok (formula, stop)) :
    ∃ tokenized, tokenize (options.setup scanner) (some options.limits.maxTokens) text.toList =
      .ok tokenized ∧ options.limits.Allow scanner tokenized.tokens formula.code := by
  obtain ⟨tokenized, code, htokens, hcode, hthread, -⟩ := compile_eq_ok h
  obtain ⟨c, hrun, rfl⟩ := assemble_eq_ok hcode
  have hstart : Compiler.start.Fits options.limits := ⟨Nat.zero_le _, Nat.zero_le _⟩
  obtain ⟨hlength, hnesting⟩ : tokenized.tokens.length ≤ options.limits.maxTokens ∧
      nesting tokenized.tokens ≤ options.limits.maxNesting := by
    rcases tokenize_bounds htokens options.limits.maxNesting options.limits.maxTokens with
      ⟨hlength, hnesting, -⟩ | ⟨-, e, he, -⟩
    · exact ⟨hlength, hnesting⟩
    · have herror : tokenize (options.setup scanner) (some options.limits.maxTokens) text.toList =
          .error e := he
      rw [htokens] at herror
      cases herror
  refine ⟨tokenized, htokens, hlength, ?_, ?_, hnesting⟩
  · rw [hthread, Code.size_thread]
    exact ((Compiler.foldlM_spends hrun).2.1 hstart).records
  · rintro any before mid ⟨rest, hbefore⟩ hmid
    rw [← hbefore, List.foldlM_append] at hrun
    obtain ⟨mid', hmid', -⟩ := bind_eq_ok hrun
    rw [Compiler.foldlM_unique hmid hmid']
    exact ((Compiler.foldlM_spends hmid').2.1 hstart).stack

-- And what keeps to the limits is compiled within them, if it is within any others.
theorem compile_of_allow {limits : Limits} {formula : CompiledFormula} {stop : Nat}
    {tokenized : Tokenized}
    (h : compile scanner options text line sourceId file = .ok (formula, stop))
    (htokens : tokenize (options.setup scanner) (some options.limits.maxTokens) text.toList =
      .ok tokenized) (hallow : limits.Allow scanner tokenized.tokens formula.code) :
    compile scanner { options with limits } text line sourceId file = .ok (formula, stop) := by
  obtain ⟨tokenized', code, htokens', hcode, hthread, hstop⟩ := compile_eq_ok h
  rw [htokens] at htokens'
  cases htokens'
  obtain ⟨c, hrun, rfl⟩ := assemble_eq_ok hcode
  have hbounded : tokenize ({ options with limits }.setup scanner) (some limits.maxTokens)
      text.toList = .ok tokenized := by
    rcases tokenize_bounds htokens limits.maxNesting limits.maxTokens with
      ⟨-, -, hsame⟩ | ⟨hover, -⟩
    · exact hsame
    · exact absurd ⟨hallow.length, hallow.nesting⟩ hover
  have hsize : c.size ≤ limits.maxRecords := by
    have hrecords := hallow.records
    rw [hthread, Code.size_thread] at hrecords
    exact hrecords
  have hassemble : assemble scanner limits tokenized.tokens = .ok c.output.code := by
    unfold assemble
    rw [(Compiler.foldlM_spends hrun).2.2 limits hsize (hallow.stack options.limits)]
    rfl
  simp only [compile, htokens, hcode, bind, Except.bind] at h
  simp only [compile, hbounded, hassemble, bind, Except.bind]
  exact h

end Compile

-- Limits are exact and change no result. Wider ones give the same, unless the old ones were passed.
-- A formula that is compiled keeps to its limits in tokens, records, stack and nesting, and a formula
-- that can be compiled at all is compiled just within the limits that it keeps to, and overflows the
-- others. Tokens alone fail at the first one that is too many.
theorem compile_limits (scanner : NumberScanner) {options : Options} {wide : Limits}
    (hle : options.limits ≤ wide) (text : String) (line sourceId : Nat) (file : String) :
    Extends CompileError.IsOverflow (compile scanner options text line sourceId file)
      (compile scanner { options with limits := wide } text line sourceId file) ∧
    (∀ formula stop, compile scanner options text line sourceId file = .ok (formula, stop) →
      ∃ tokenized, tokenize (options.setup scanner) (some options.limits.maxTokens) text.toList =
        .ok tokenized ∧ options.limits.Allow scanner tokenized.tokens formula.code) ∧
    (∀ formula stop,
      compile scanner { options with limits := wide } text line sourceId file = .ok (formula, stop) →
      ∃ tokenized,
        tokenize ({ options with limits := wide }.setup scanner) (some wide.maxTokens) text.toList =
          .ok tokenized ∧
        (options.limits.Allow scanner tokenized.tokens formula.code →
          compile scanner options text line sourceId file = .ok (formula, stop)) ∧
        (¬options.limits.Allow scanner tokenized.tokens formula.code →
          ∃ e, compile scanner options text line sourceId file = .error e ∧ e.IsOverflow)) ∧
    ∀ (setup : Setup) (chars : List Char) (tokenized : Tokenized),
      tokenize setup none chars = .ok tokenized → ∀ limit,
        (tokenized.tokens.length ≤ limit → tokenize setup (some limit) chars = .ok tokenized) ∧
        ∀ token, tokenized.tokens[limit]? = some token →
          tokenize setup (some limit) chars = .error ⟨token.start, .overflow .tokens limit⟩ := by
  refine ⟨compile_extends hle, fun _ _ => compile_allowed, ?_, fun _ _ _ => tokenize_maxTokens⟩
  intro formula stop h
  obtain ⟨tokenized, -, htokens, -, -, -⟩ := compile_eq_ok h
  have hwithin : options.limits.Allow scanner tokenized.tokens formula.code →
      compile scanner options text line sourceId file = .ok (formula, stop) := by
    intro hallow
    have hsame := compile_of_allow h htokens hallow
    exact hsame
  refine ⟨tokenized, htokens, hwithin, fun hover => ?_⟩
  rcases compile_extends hle with hsame | hoverflow
  · -- What is compiled within the old limits keeps to them.
    rw [h] at hsame
    obtain ⟨tokenized', htokens', hallow⟩ := compile_allowed hsame.symm
    have hdepth : (options.setup scanner).maxDepth = some options.limits.maxNesting := rfl
    have hwide := (tokenize_extends hdepth hle.2.2.2 hle.1 text.toList).eq_ok htokens'
    cases htokens.symm.trans hwide
    exact absurd hallow hover
  · exact hoverflow

-- The least limits of a formula, against the usual ones.
theorem compile_limits_least :
    (⟨13, 14, 3, 2⟩ : Limits) ≤ {} ∧ ∃ formula stop tokenized,
      compile scanNumber { limits := ⟨13, 14, 3, 2⟩ } "a?f(x,[1]):b" 1 0 "" = .ok (formula, stop) ∧
      tokenize (({ limits := ⟨13, 14, 3, 2⟩ } : Options).setup scanNumber) (some 13)
        "a?f(x,[1]):b".toList = .ok tokenized ∧
      Limits.Allow ⟨13, 14, 3, 2⟩ scanNumber tokenized.tokens formula.code ∧
      compile scanNumber {} "a?f(x,[1]):b" 1 0 "" = .ok (formula, stop) := by
  let options : Options := { limits := ⟨13, 14, 3, 2⟩ }
  have hle : options.limits ≤ {} := ⟨by decide, by decide, by decide, by decide⟩
  have hok : (compile scanNumber options "a?f(x,[1]):b" 1 0 "").isOk = true := by
    decide +kernel
  obtain ⟨⟨formula, stop⟩, h⟩ := exists_ok hok
  obtain ⟨hextends, hallowed, -, -⟩ := compile_limits scanNumber hle "a?f(x,[1]):b" 1 0 ""
  obtain ⟨tokenized, htokens, hallow⟩ := hallowed formula stop h
  exact ⟨hle, formula, stop, tokenized, h, htokens, hallow, hextends.eq_ok h⟩

end FormulaCode
