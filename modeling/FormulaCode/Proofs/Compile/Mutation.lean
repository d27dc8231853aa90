import FormulaCode.Proofs.Compile.Invariant
import FormulaCode.Proofs.Token.Success

namespace FormulaCode

-- What an instruction has to do with changing a variable: it stores a value, steps one up or down,
-- or leaves a place for either.
inductive Mutation where
  | assign
  | step
  | place
deriving DecidableEq

def Op.mutation? : Op → Option Mutation
  | assign _ => some .assign
  | incDec _ => some .step
  | lookupPointer | derefPointer | slicePointer _ => some .place
  | _ => none

-- Only the pointer form of an access leaves a place.
theorem Op.mutation?_of_pointerForm? {op pointer : Op} (h : op.pointerForm? = some pointer) :
    op.mutation? = none ∧ pointer.mutation? = some .place := by
  cases op with
  | lookupValue | derefValue =>
      cases h
      exact ⟨rfl, rfl⟩
  | sliceValue shape =>
      simp only [pointerForm?, Option.ite_none_right_eq_some] at h
      cases h.2
      exact ⟨rfl, rfl⟩
  | _ => cases h

def Record.mutation? : Record → Option Mutation
  | .instr head => head.op.mutation?
  | .text _ => none

def Code.mutations (code : Code) : List Mutation :=
  code.records.toList.filterMap Record.mutation?

-- What is to be written for an operator, for an entry of the stack, and for a token. The place of an
-- assignment is written at once, that of a step in front of its operand only behind it.
def Operator.owed : Operator → List Mutation
  | preIncrement | preDecrement => [.place, .step]
  | _ => []

def Entry.owed : Entry → List Mutation
  | pending (.operator op _) => op.owed
  | pending (.assign _ _) => [.assign]
  | _ => []

def Form.owed : Form → List Mutation
  | stepAfter _ => [.place, .step]
  | assign _ => [.place, .assign]
  | stepBefore op | unary op | binary op => op.owed
  | _ => []

theorem count_mutations_set (m : Mutation) (records : List Record) (index : Nat) (old new : Instr)
    (h : records[index]? = some (.instr old)) :
    ((records.set index (.instr new)).filterMap Record.mutation?).count m +
        old.op.mutation?.toList.count m =
      (records.filterMap Record.mutation?).count m + new.op.mutation?.toList.count m := by
  have hcons : ∀ (record : Record) (rest : List Record),
      ((record :: rest).filterMap Record.mutation?).count m =
        record.mutation?.toList.count m + (rest.filterMap Record.mutation?).count m := by
    intro record rest
    cases hrecord : record.mutation? with
    | none => simp [hrecord]
    | some found => simp [hrecord, List.count_cons, Nat.add_comm]
  induction records generalizing index with
  | nil => cases h
  | cons record rest ih =>
      cases index with
      | zero =>
          obtain rfl : record = .instr old := by simpa using h
          rw [List.set_cons_zero, hcons, hcons]
          simp only [Record.mutation?]
          omega
      | succ index =>
          have hrest := ih index (by simpa using h)
          rw [List.set_cons_succ, hcons, hcons]
          omega

namespace Code

theorem count_setOp {code : Code} {index : Nat} {instr : Instr} (m : Mutation) (op : Op)
    (h : code.instr? index = some instr) :
    (code.setOp index op).mutations.count m + instr.op.mutation?.toList.count m =
      code.mutations.count m + op.mutation?.toList.count m := by
  have hrecord : code.records.toList[index]? = some (.instr instr) := by
    simpa using instr?_eq_some_iff.mp h
  have hset := count_mutations_set m _ index instr { instr with op } hrecord
  rw [setOp_of_instr? op h]
  simpa [mutations] using hset

-- A branch has nothing to do with variables, wherever it leads.
theorem count_withTarget {code : Code} {index target : Nat} {instr : Instr} {op : Op} (m : Mutation)
    (h : code.instr? index = some instr) (hop : instr.op.withTarget? target = some op) :
    (code.setOp index op).mutations.count m = code.mutations.count m := by
  have hnone : ∀ op : Op, op.isBranch = true → op.mutation? = none := by
    intro op hbranch
    cases op with
    | branchIfFalse | branchIfTrue | goto => rfl
    | _ => cases hbranch
  obtain ⟨-, hbranch, hold, -⟩ := Op.withTarget?_eq_some hop
  have hcount := count_setOp m op h
  rw [hnone _ hold, hnone _ hbranch] at hcount
  simpa using hcount

theorem count_thread (code : Code) (m : Mutation) :
    code.thread.1.mutations.count m = code.mutations.count m := by
  refine thread_induction (motive := fun later =>
    later.mutations.count m = code.mutations.count m) ?_ code rfl
  intro later index next hcount hnext
  obtain ⟨jump, target, landing, op, hjump, -, -, -, -, -, hop, heq⟩ := shortcut?_eq_some hnext
  rw [heq, count_withTarget m hjump hop]
  exact hcount

end Code

-- Whenever a run succeeds, its answer measures as much.
def Measures (measure : α → Nat) (total : Nat) (run : Except CompileError α) : Prop :=
  ∀ a, run = .ok a → measure a = total

namespace Measures

variable {α β : Type} {measure : α → Nat} {total : Nat}

theorem ok {a : α} (h : measure a = total) : Measures measure total (.ok a) := by
  rintro _ ⟨⟩
  exact h

theorem error {e : CompileError} : Measures measure total (.error e) := by
  rintro _ ⟨⟩

theorem bind {run : Except CompileError α} {next : α → Except CompileError β} {after : β → Nat}
    {sum : Nat} (h : Measures measure total run)
    (hnext : ∀ a, measure a = total → Measures after sum (next a)) :
    Measures after sum (run >>= next) := by
  cases run with
  | error e => exact error
  | ok a => exact hnext a (h a rfl)

theorem of_eq {run : Except CompileError α} {other : Nat} (h : Measures measure other run)
    (heq : other = total) : Measures measure total run :=
  heq ▸ h

end Measures

-- What is written and what is still owed.
def Assembly.count (m : Mutation) (a : Assembly) : Nat :=
  a.code.mutations.count m

def owing (m : Mutation) (stack : List Entry) : Nat :=
  (stack.flatMap Entry.owed).count m

def Compiler.tally (m : Mutation) (c : Compiler) : Nat :=
  c.output.count m + owing m c.stack

@[simp] theorem owing_cons (m : Mutation) (entry : Entry) (stack : List Entry) :
    owing m (entry :: stack) = entry.owed.count m + owing m stack := by
  simp [owing]

section Assembly

variable {limit pos : Nat} (m : Mutation) (a : Assembly)

theorem Assembly.append_measures (instr : Instr) (chunks : List Chunk) :
    Measures (Assembly.count m) (a.count m + instr.op.mutation?.toList.count m)
      (a.append limit (.instr instr :: chunks.map .text) pos) := by
  have htexts : (chunks.map Record.text).filterMap Record.mutation? = [] := by
    simp [List.filterMap_eq_nil_iff, Record.mutation?]
  unfold Assembly.append
  split
  · exact .error
  · refine .ok ?_
    cases hop : instr.op.mutation? with
    | none => simp [Assembly.count, Code.mutations, Record.mutation?, hop, htexts]
    | some found =>
        simp [Assembly.count, Code.mutations, Record.mutation?, hop, htexts]

theorem Assembly.emit_measures (op : Op) :
    Measures (Assembly.count m) (a.count m + op.mutation?.toList.count m) (a.emit limit op pos) :=
  a.append_measures m ⟨op, 1, .ofNat pos⟩ []

theorem Assembly.emitText_measures (op : Op) (text : List Char) :
    Measures (Assembly.count m) (a.count m + op.mutation?.toList.count m)
      (a.emitText limit op text pos) :=
  a.append_measures m _ _

theorem Assembly.patch_measures (index : Nat) :
    Measures (Assembly.count m) (a.count m) (a.patch index) := by
  unfold Assembly.patch
  split
  · exact .error
  · rename_i instr hinstr
    split
    · rename_i op hop
      exact .ok (Code.count_withTarget m hinstr hop)
    · exact .error

theorem Assembly.pointerize_measures :
    Measures (Assembly.count m) (a.count m + [Mutation.place].count m) (a.pointerize pos) := by
  unfold Assembly.pointerize
  split
  · exact .error
  · split
    · exact .error
    · rename_i instr hinstr
      split
      · rename_i pointer hpointer
        obtain ⟨hnone, hplace⟩ := Op.mutation?_of_pointerForm? hpointer
        have hcount := Code.count_setOp m pointer hinstr
        rw [hnone, hplace] at hcount
        exact .ok hcount
      · exact .error
      · exact .error

theorem Assembly.step_measures (op : Operator) :
    Measures (Assembly.count m) (a.count m + [Mutation.place, .step].count m)
      (a.pointerize pos >>= fun b => b.emit limit (.incDec op) pos) := by
  refine (a.pointerize_measures m).bind fun b hb => (b.emit_measures m _).of_eq ?_
  simp only [hb, Op.mutation?, Option.toList, List.count_cons, List.count_nil]
  omega

-- An operator writes what it owes.
theorem Pending.apply_measures (p : Pending) :
    Measures (Assembly.count m) (a.count m + (Entry.pending p).owed.count m) (p.apply limit a) := by
  unfold Pending.apply
  split
  · exact a.emit_measures m _
  · exact a.step_measures m _
  · exact a.step_measures m _
  · rename_i op _ _ hincrement hdecrement
    have howed : op.owed = [] := by
      cases op with
      | preIncrement => exact (hincrement rfl).elim
      | preDecrement => exact (hdecrement rfl).elim
      | _ => rfl
    refine (a.emit_measures m _).of_eq ?_
    rw [Entry.owed, howed]
    rfl
  · refine (a.emit_measures m _).bind fun b hb => (b.patch_measures m _).of_eq ?_
    rw [hb]
    rfl
  · exact a.emit_measures m _
  · refine (a.patch_measures m _).bind fun b hb => .ok ?_
    exact hb
  · exact a.emit_measures m _

theorem reduceWhile_measures (yields : Pending → Bool) (stack : List Entry) :
    Measures (fun answer => answer.2.count m + owing m answer.1) (a.count m + owing m stack)
      (reduceWhile limit yields stack a) := by
  induction stack generalizing a with
  | nil => exact .ok rfl
  | cons entry rest ih =>
      cases entry with
      | barrier b => exact .ok rfl
      | pending p =>
          rw [reduceWhile]
          split
          · refine (p.apply_measures m a).bind fun b hb => (ih b).of_eq ?_
            rw [hb, owing_cons, Nat.add_assoc]
          · exact .ok rfl

end Assembly

namespace Compiler

variable {limits : Limits} {pos : Nat} (m : Mutation) (c : Compiler)

theorem push_measures (entry : Entry) :
    Measures (tally m) (c.tally m + entry.owed.count m) (c.push limits entry) := by
  unfold push
  split
  · exact .error
  · refine .ok ?_
    simp only [tally, owing_cons]
    omega

theorem emit_measures (op : Op) :
    Measures (tally m) (c.tally m + op.mutation?.toList.count m) (c.emit limits op pos) := by
  refine (c.output.emit_measures m op).bind fun output houtput => .ok ?_
  simp only [tally, houtput]
  omega

theorem emitText_measures (op : Op) (text : List Char) :
    Measures (tally m) (c.tally m + op.mutation?.toList.count m)
      (c.emitText limits op text pos) := by
  refine (c.output.emitText_measures m op text).bind fun output houtput => .ok ?_
  simp only [tally, houtput]
  omega

theorem pointerize_measures :
    Measures (tally m) (c.tally m + [Mutation.place].count m) (c.pointerize pos) := by
  refine (c.output.pointerize_measures m).bind fun output houtput => .ok ?_
  simp only [tally, houtput]
  omega

-- What is owed is written, so nothing is lost or gained.
theorem reduce_measures (yields : Pending → Bool) :
    Measures (tally m) (c.tally m) (c.reduce limits yields) := by
  refine (reduceWhile_measures m c.output yields c.stack).bind fun answer hanswer => .ok ?_
  exact hanswer

theorem flush_measures : Measures (tally m) (c.tally m) (c.flush limits) :=
  c.reduce_measures m _

theorem binary_measures (op : Operator) :
    Measures (tally m) (c.tally m + op.owed.count m) (c.binary limits op pos) := by
  refine (c.reduce_measures m _).bind fun after hafter => ?_
  rw [← hafter]
  cases op with
  | collect => exact .ok rfl
  | logicalAnd | logicalOr =>
      refine (after.emit_measures m _).bind fun later hlater => ?_
      refine (later.push_measures m _).of_eq ?_
      rw [hlater]
      rfl
  | _ => exact after.push_measures m _

theorem question_measures : Measures (tally m) (c.tally m) (c.question limits pos) := by
  refine (c.reduce_measures m _).bind fun after hafter => ?_
  refine (after.emit_measures m _).bind fun later hlater => ?_
  refine (later.push_measures m _).of_eq ?_
  rw [hlater, hafter]
  rfl

theorem colon_measures : Measures (tally m) (c.tally m) (c.colon limits pos) := by
  refine (c.flush_measures m).bind fun after hafter => ?_
  rw [← hafter]
  obtain ⟨stack, output⟩ := after
  dsimp only
  split
  · refine (output.emit_measures m _).bind fun first hfirst => ?_
    refine (first.patch_measures m _).bind fun second hsecond => ?_
    refine (push_measures m ⟨_, second⟩ _).of_eq ?_
    simp [tally, hsecond, hfirst, Op.mutation?, Entry.owed]
  · exact .error

theorem openGroup_measures (group : Group) :
    Measures (tally m) (c.tally m) (c.openGroup limits group pos) := by
  have hpush : ∀ after : Compiler, after.tally m = c.tally m →
      Measures (tally m) (c.tally m) (after.push limits (.barrier (.bracket group pos))) :=
    fun after hafter => (after.push_measures m _).of_eq (by simpa [Entry.owed] using hafter)
  unfold openGroup
  split
  · exact (c.reduce_measures m _).bind hpush
  · exact (c.reduce_measures m _).bind hpush
  · exact hpush c rfl

theorem belowBracket_measures (group : Group) (token : Token) :
    Measures (owing m) (owing m c.stack) (c.belowBracket group token) := by
  unfold belowBracket
  split
  · exact .error
  · rename_i hstack
    split
    · refine .ok ?_
      simp [hstack, Entry.owed]
    · exact .error
  · exact .error

theorem closeGroup_measures (found : Closing) (token : Token) :
    Measures (tally m) (c.tally m) (c.closeGroup limits found token) := by
  refine (c.flush_measures m).bind fun after hafter => ?_
  refine (after.belowBracket_measures m _ token).bind fun below hbelow => ?_
  have htally : tally m { after with stack := below } = c.tally m := by
    rw [← hafter, tally, tally, hbelow]
  rw [← htally]
  cases found with
  | subExpr => exact .ok rfl
  | call | list | dict | subscript => exact emit_measures m _ _
  | substArgs items =>
      dsimp only
      split
      · refine (emit_measures m _ _).of_eq ?_
        simp [tally, Op.mutation?, Entry.owed, Operator.owed]
      · exact .error

theorem finish_measures : Measures (tally m) (c.tally m) (c.finish limits pos) := by
  refine (c.flush_measures m).bind fun after hafter => ?_
  rw [← hafter]
  split
  · exact after.emit_measures m _
  · exact .error
  · exact .error

-- Each token adds what it owes.
theorem step_measures (scanner : NumberScanner) (token : Token) :
    Measures (tally m) (c.tally m + token.form.owed.count m) (c.step scanner limits token) := by
  obtain ⟨start, text, form⟩ := token
  cases form with
  | number =>
      simp only [step]
      split
      · exact c.emit_measures m _
      · exact .error
  | string verbatim =>
      -- Nothing need be known of the value, as no text has to do with variables.
      have hvalue : Measures (fun _ => 0) 0 (stringValue ⟨start, text, .string verbatim⟩ verbatim) :=
        fun _ _ => rfl
      exact hvalue.bind fun value _ => c.emitText_measures m _ value
  | name | memberName | dollarName => exact c.emitText_measures m _ _
  | dot => exact c.reduce_measures m _
  | dollar => exact c.push_measures m _
  | unary op | stepBefore op =>
      refine (c.reduce_measures m _).bind fun after hafter => ?_
      rw [← hafter]
      exact after.push_measures m _
  | stepAfter op =>
      refine (c.pointerize_measures m).bind fun after hafter => ?_
      refine (after.emit_measures m _).of_eq ?_
      simp only [hafter, Op.mutation?, Form.owed, Option.toList, List.count_cons, List.count_nil]
      omega
  | substitute => exact c.binary_measures m _
  | binary op => exact c.binary_measures m op
  | ternary mark =>
      cases mark with
      | question => exact c.question_measures m
      | colon => exact c.colon_measures m
      | pair => exact c.reduce_measures m _
  | assign op =>
      refine (c.reduce_measures m _).bind fun mid hmid => ?_
      refine (mid.pointerize_measures m).bind fun after hafter => ?_
      refine (after.push_measures m _).of_eq ?_
      simp only [hafter, hmid, Form.owed, Entry.owed, List.count_cons, List.count_nil]
      omega
  | opening group => exact c.openGroup_measures m group
  | closing found => exact c.closeGroup_measures m found _
  | sliceMark =>
      refine (c.flush_measures m).bind fun after hafter => ?_
      refine (after.belowBracket_measures m _ _).bind fun _ _ => .ok ?_
      exact hafter
  | finish items => exact c.finish_measures m

theorem foldlM_measures (scanner : NumberScanner) (tokens : List Token) :
    Measures (tally m) (c.tally m + (tokens.flatMap fun token => token.form.owed).count m)
      (tokens.foldlM (step scanner limits) c) := by
  induction tokens generalizing c with
  | nil => exact .ok rfl
  | cons token rest ih =>
      rw [List.foldlM_cons]
      refine (c.step_measures m scanner token).bind fun after hafter => (ih after).of_eq ?_
      rw [hafter, List.flatMap_cons, List.count_append, Nat.add_assoc]

-- Nothing is open behind the end of a formula.
theorem stack_of_finish {scanner : NumberScanner} {token : Token} {r next : Reading}
    {after : Compiler} (hnext : Reading.Next scanner r token next) (hlast : next.state = .finish)
    (h : c.step scanner limits token = .ok after) : after.stack = [] := by
  cases hnext with
  | plain _ hplain => exact (hplain.kind_ne_finish hlast).elim
  | separate _ hform =>
      rcases hform with hform | hform
      · simp [Token.kind, hform, Form.kind] at hlast
      · simp [Token.kind, hform, Form.kind] at hlast
  | closing found => cases found <;> cases hlast
  | boundName | question | colon | opening | sliceMark => cases hlast
  | finish _ hform =>
      simp only [step, hform, finish, bind, Except.bind] at h
      split at h
      · cases h
      · split at h
        · rename_i hempty
          simp only [emit, bind, Except.bind] at h
          split at h
          · cases h
          · cases h
            exact hempty
        · cases h
        · cases h

theorem stack_of_run {scanner : NumberScanner} {tokens : List Token} {r last : Reading}
    {after : Compiler} (hrun : Reading.Run scanner r tokens last) (hlast : last.state = .finish)
    (hstart : r.state = .finish → c.stack = [])
    (h : tokens.foldlM (step scanner limits) c = .ok after) : after.stack = [] := by
  induction hrun generalizing c with
  | nil =>
      cases h
      exact hstart hlast
  | @cons r mid last token tokens hnext _ ih =>
      rw [List.foldlM_cons] at h
      cases hstep : c.step scanner limits token with
      | error e =>
          rw [hstep] at h
          cases h
      | ok stepped =>
          rw [hstep] at h
          exact ih stepped hlast (fun hmid => c.stack_of_finish hnext hmid hstep) h

end Compiler

-- The mutations in the code of a formula are those of its tokens.
theorem compile_mutations {scanner : NumberScanner} {options : Options} {text : String}
    {line sourceId : Nat} {file : String} {formula : CompiledFormula} {stop : Nat}
    (h : compile scanner options text line sourceId file = .ok (formula, stop)) :
    ∃ tokenized last,
      tokenize (options.setup scanner) (some options.limits.maxTokens) text.toList =
        .ok tokenized ∧
      Reading.Run scanner .start tokenized.tokens last ∧
      formula.code.mutations.Perm (tokenized.tokens.flatMap fun token => token.form.owed) := by
  obtain ⟨tokenized, code, htokens, hcode, hthread, -⟩ := compile_eq_ok h
  obtain ⟨last, hlast, hrun⟩ := tokenize_eq_ok htokens rfl
  refine ⟨tokenized, last, htokens, hrun, List.perm_iff_count.mpr fun m => ?_⟩
  simp only [assemble, bind, Except.bind] at hcode
  split at hcode
  · cases hcode
  · rename_i c hfold
    cases hcode
    have hcount := Compiler.start.foldlM_measures m scanner tokenized.tokens c hfold
    have hstack := Compiler.start.stack_of_run hrun hlast (by simp [Reading.start]) hfold
    rw [hthread, Code.count_thread]
    simpa [Compiler.tally, Compiler.start, Assembly.count, Assembly.empty, Code.mutations, owing,
      hstack] using hcount

-- An operator that steps a variable, before or behind it.
def Form.isStep : Form → Bool
  | stepAfter _ | stepBefore _ => true
  | _ => false

def Token.isStep (token : Token) : Bool :=
  token.form.isStep

def Token.isAssign (token : Token) : Bool :=
  token.form.assignment?.isSome

-- Of the tokens that are read, only assignments and steps owe anything.
theorem Reading.Next.owed {scanner : NumberScanner} {r next : Reading} {token : Token}
    (h : Reading.Next scanner r token next) : token.form.owed =
      if token.isStep then [.place, .step] else if token.isAssign then [.place, .assign] else [] := by
  obtain ⟨start, text, form⟩ := token
  cases h with
  | plain _ hplain =>
      cases form with
      | unary op =>
          revert hplain
          cases op <;> simp [Token.Plain, Form.owed, Operator.owed, Token.isStep, Form.isStep,
            Token.isAssign, Form.assignment?]
      | binary op =>
          revert hplain
          cases op <;> simp [Token.Plain, Form.owed, Operator.owed, Token.isStep, Form.isStep,
            Token.isAssign, Form.assignment?, Operator.arity]
      | stepBefore op =>
          rcases hplain with rfl | rfl <;> rfl
      | _ => rfl
  | separate _ hform =>
      rcases hform with rfl | rfl
      · rfl
      · rfl
  | boundName hform | question _ hform | colon _ hform | sliceMark _ hform | finish _ hform =>
      obtain rfl := hform
      rfl
  | opening _ _ hform | closing _ _ hform =>
      obtain rfl := hform
      rfl

theorem Reading.Run.flatMap_owed {scanner : NumberScanner} {r last : Reading} {tokens : List Token}
    (h : Reading.Run scanner r tokens last) (hassign : ∀ token ∈ tokens, token.isAssign = false) :
    (tokens.flatMap fun token => token.form.owed) =
      (tokens.filter Token.isStep).flatMap fun _ => [.place, .step] := by
  induction h with
  | nil => rfl
  | @cons r mid last token tokens hnext _ ih =>
      obtain ⟨htoken, hrest⟩ := List.forall_mem_cons.mp hassign
      rw [List.flatMap_cons, hnext.owed, ih hrest]
      by_cases hstep : token.isStep
      · simp [hstep]
      · simp [hstep, htoken]

-- Places are left for what uses them up, and for nothing else.
theorem Reading.Run.count_owed {scanner : NumberScanner} {r last : Reading} {tokens : List Token}
    (h : Reading.Run scanner r tokens last) :
    (tokens.flatMap fun token => token.form.owed).count .place =
      (tokens.flatMap fun token => token.form.owed).count .assign +
        (tokens.flatMap fun token => token.form.owed).count .step := by
  induction h with
  | nil => rfl
  | @cons r mid last token tokens hnext _ ih =>
      have htoken : token.form.owed.count .place =
          token.form.owed.count .assign + token.form.owed.count .step := by
        rw [hnext.owed]
        split
        · decide
        · split <;> decide
      simp only [List.flatMap_cons, List.count_append]
      omega

section Unassigned

variable {setup : Setup} (hpermission : setup.permissions.assignment = false)

include hpermission

theorem isAssign_of_nextMove {level : Level} {cur next : Cursor} {text lexeme : List Char}
    {form : Form} {extra pos : Nat}
    (h : nextMove setup level cur text = .ok (.token form extra next)) :
    Token.isAssign ⟨pos, lexeme, form⟩ = false := by
  obtain ⟨kind, -, hfound⟩ := nextMove_eq_ok h
  cases form with
  | assign op =>
      obtain rfl : TokenKind.assignOp = kind := kind_of_recognise hfound
      simp [recognise, hpermission] at hfound
  | _ => rfl

theorem unassigned_rules :
    ScanRules setup fun _ _ _ tokens _ => ∀ token ∈ tokens, token.isAssign = false := by
  refine .of_each ?_ (isAssign_of_nextMove hpermission) fun _ => rfl
  intro pos text form hform
  cases form with
  | assign op => cases hform
  | _ => rfl

end Unassigned

theorem Code.mutations_eq_nil_iff {code : Code} : code.mutations = [] ↔
    ∀ index instr, code.instr? index = some instr → instr.op.mutation? = none := by
  rw [mutations, List.filterMap_eq_nil_iff]
  constructor
  · intro h index instr hinstr
    have hrecord : code.records.toList[index]? = some (.instr instr) := by
      simpa using instr?_eq_some_iff.mp hinstr
    exact h _ (List.mem_of_getElem? hrecord)
  · intro h record hmem
    cases record with
    | text chunk => rfl
    | instr instr =>
        obtain ⟨index, hindex⟩ := List.mem_iff_getElem?.mp hmem
        exact h index instr (instr?_eq_some_iff.mpr (by simpa using hindex))

-- Without permission nothing is stored, but a variable may still be stepped: each such operator
-- makes one place and one step, and nothing else makes any.
theorem compile_mutates_iff {scanner : NumberScanner} {options : Options} {text : String}
    {line sourceId : Nat} {file : String} {formula : CompiledFormula} {stop : Nat}
    (h : compile scanner options text line sourceId file = .ok (formula, stop))
    (hpermission : options.allowAssignment = false) :
    ∃ tokenized,
      tokenize (options.setup scanner) (some options.limits.maxTokens) text.toList =
        .ok tokenized ∧
      formula.code.mutations.Perm
        ((tokenized.tokens.filter Token.isStep).flatMap fun _ => [.place, .step]) ∧
      ((∀ index instr, formula.code.instr? index = some instr → instr.op.mutation? = none) ↔
        ∀ token ∈ tokenized.tokens, token.isStep = false) := by
  obtain ⟨tokenized, last, htokens, hrun, hperm⟩ := compile_mutations h
  obtain ⟨-, hunassigned⟩ := (unassigned_rules hpermission).of_tokenize htokens
  rw [hrun.flatMap_owed hunassigned] at hperm
  refine ⟨tokenized, htokens, hperm, ?_⟩
  rw [← Code.mutations_eq_nil_iff]
  have hempty : formula.code.mutations = [] ↔
      ((tokenized.tokens.filter Token.isStep).flatMap fun _ => [Mutation.place, .step]) = [] :=
    ⟨fun hnil => (hnil ▸ hperm).symm.eq_nil, fun hnil => (hnil ▸ hperm).eq_nil⟩
  rw [hempty]
  simp [List.flatMap_eq_nil_iff]

theorem compile_mutates_iff_mixed : ∃ formula stop tokenized,
    compile scanNumber {} "row.count++ - f(--total, n == m)" 1 0 "" = .ok (formula, stop) ∧
      ({} : Options).allowAssignment = false ∧
      tokenize (Options.setup {} scanNumber) (some 4096) "row.count++ - f(--total, n == m)".toList =
        .ok tokenized ∧
      formula.code.mutations.Perm
        ((tokenized.tokens.filter Token.isStep).flatMap fun _ => [.place, .step]) ∧
      ((∀ index instr, formula.code.instr? index = some instr → instr.op.mutation? = none) ↔
        ∀ token ∈ tokenized.tokens, token.isStep = false) := by
  have hok : (compile scanNumber {} "row.count++ - f(--total, n == m)" 1 0 "").isOk = true := by
    decide +kernel
  obtain ⟨⟨formula, stop⟩, h⟩ := exists_ok hok
  obtain ⟨tokenized, hmutates⟩ := compile_mutates_iff h rfl
  exact ⟨formula, stop, tokenized, h, rfl, hmutates⟩

-- The code of a formula that was given no permission changes a variable.
theorem compile_steps_unpermitted : ∃ formula stop,
    compile scanNumber {} "x++" 1 0 "" = .ok (formula, stop) ∧
      ({} : Options).allowAssignment = false ∧
      formula.code.walk.map (·.2.op) = [.lookupPointer, .incDec .postIncrement, .ret] := by
  have hops : (compile scanNumber {} "x++" 1 0 "").toOption.map (·.1.code.walk.map (·.2.op)) =
      some [.lookupPointer, .incDec .postIncrement, .ret] := by
    decide +kernel
  obtain ⟨⟨formula, stop⟩, h, hops⟩ := exists_ok_of_map hops
  exact ⟨formula, stop, h, rfl, hops⟩

end FormulaCode
