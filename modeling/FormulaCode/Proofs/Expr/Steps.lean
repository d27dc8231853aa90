import FormulaCode.Proofs.Number
import FormulaCode.Proofs.Expr.Stack

namespace FormulaCode

namespace Compiler

-- Reads tokens one after another.
def run (limits : Limits) (c : Compiler) (tokens : List Token) : Except CompileError Compiler :=
  tokens.foldlM (step scanNumber limits) c

variable {limits : Limits} {stack : List Entry} {bound pos : Nat} {records : List Record}
  {last : Option Nat} {c : Compiler}

theorem run_nil : run limits c [] = .ok c := rfl

theorem run_cons {token : Token} {tokens : List Token} {next : Compiler}
    (h : step scanNumber limits c token = .ok next) :
    run limits c (token :: tokens) = run limits next tokens := by
  rw [run, List.foldlM_cons, h]
  rfl

theorem run_append {first second : List Token} {next : Compiler}
    (h : run limits c first = .ok next) :
    run limits c (first ++ second) = run limits next second := by
  rw [run] at h
  rw [run, List.foldlM_append, h]
  rfl

theorem push_eq {output : Assembly} {entry : Entry} (h : stack.length < limits.maxStackDepth) :
    push limits ⟨stack, output⟩ entry = .ok ⟨entry :: stack, output⟩ := by
  rw [push, if_neg (Nat.not_le.mpr h)]

theorem emit_eq {op : Op} (h : records.length + 1 ≤ limits.maxRecords) :
    emit limits ⟨stack, .ofRecords records last⟩ op pos =
      .ok ⟨stack, .ofRecords (records ++ Expr.single op pos) (some records.length)⟩ := by
  simp only [emit, Assembly.emit_ofRecords h]
  rfl

theorem reduce_of_stops {yields : Pending → Bool} {output : Assembly} (h : Stops yields stack) :
    reduce limits ⟨stack, output⟩ yields = .ok ⟨stack, output⟩ := by
  have hreduce : reduceWhile limits.maxRecords yields (([] : List Pending).map .pending ++ stack)
      output = .ok (stack, output) := reduceWhile_spine (by simp) h rfl
  simp only [reduce]
  rw [show stack = ([] : List Pending).map .pending ++ stack from rfl, hreduce]
  rfl

theorem step_number (digits : Digits) (h : records.length + 1 ≤ limits.maxRecords) :
    step scanNumber limits ⟨stack, .ofRecords records last⟩ ⟨pos, digits.chars, .number⟩ =
      .ok ⟨stack, .ofRecords (records ++ Expr.single
        (.pushNumber (Numeral.decimal digits.chars none none).value) pos)
        (some records.length)⟩ := by
  have hscan : scanNumber (digits.chars ++ []) = _ :=
    scanNumber_digits digits.ne_nil digits.digits (by simp)
  rw [List.append_nil] at hscan
  simp only [step, hscan]
  exact emit_eq h

theorem step_name (word : Name)
    (h : records.length + (Expr.naming .lookupValue word pos).length ≤ limits.maxRecords) :
    step scanNumber limits ⟨stack, .ofRecords records last⟩ ⟨pos, word.chars, .name⟩ =
      .ok ⟨stack, .ofRecords (records ++ Expr.naming .lookupValue word pos)
        (some records.length)⟩ := by
  simp only [step, emitText, Assembly.emitText_ofRecords h]
  rfl

-- An operator in front of its operand.
theorem step_before {op : Operator} {form : Form} {text : List Char} {output : Assembly}
    (hform : form = .unary op ∨ form = .stepBefore op)
    (hstops : Stops (Pending.yieldsToUnary op) stack) (h : stack.length < limits.maxStackDepth) :
    step scanNumber limits ⟨stack, output⟩ ⟨pos, text, form⟩ =
      .ok ⟨.pending (.operator op pos) :: stack, output⟩ := by
  rcases hform with rfl | rfl <;>
  · simp only [step, reduce_of_stops hstops]
    exact push_eq h

section Binary

variable {op : Operator} (hc : c.Holds limits stack bound records)
  (hyields : ∀ p : Pending, p.precedence ≤ bound → p.yields op = true)
  (hstops : Stops (Pending.yields op) stack)

include hc hyields hstops

theorem step_binary (hop : Expr.shortcut? op = none) (hcollect : op ≠ .collect)
    (h : stack.length < limits.maxStackDepth) (pos : Nat) (text : List Char) :
    ∃ last, step scanNumber limits c ⟨pos, text, .binary op⟩ =
      .ok ⟨.pending (.operator op pos) :: stack, .ofRecords records last⟩ := by
  obtain ⟨last, hreduce⟩ := hc.reduce hyields hstops
  refine ⟨last, ?_⟩
  simp only [step, binary, hreduce, bind, Except.bind]
  split
  · exact absurd rfl hcollect
  · cases hop
  · cases hop
  · exact push_eq h

-- The branch over the right side comes first, and its place is remembered.
theorem step_logical {branch : Branch → Op} (hop : Expr.shortcut? op = some branch)
    (h : stack.length < limits.maxStackDepth) (hrecords : records.length + 1 ≤ limits.maxRecords)
    {text : List Char} :
    step scanNumber limits c ⟨pos, text, .binary op⟩ =
      .ok ⟨.pending (.logical op pos records.length) :: stack,
        .ofRecords (records ++ Expr.single (branch ⟨none, false⟩) pos) (some records.length)⟩ := by
  obtain ⟨last, hreduce⟩ := hc.reduce hyields hstops
  simp only [step, binary, hreduce, bind, Except.bind, emit_eq hrecords, Assembly.size_ofRecords]
  split
  · cases hop
  · cases hop
    exact push_eq h
  · cases hop
    exact push_eq h
  · rename_i hand hor
    cases op <;> simp_all [Expr.shortcut?]

end Binary

theorem step_collect {b : Barrier} (hc : c.Holds limits (.barrier b :: stack) bound records)
    (hbound : bound ≤ 18) (pos : Nat) (text : List Char) :
    ∃ last, step scanNumber limits c ⟨pos, text, .binary .collect⟩ =
      .ok ⟨.barrier b :: stack, .ofRecords records last⟩ := by
  have hyields : ∀ p : Pending, p.precedence ≤ bound → p.yields .collect = true := by
    intro p hp
    exact decide_eq_true (Nat.le_trans hp hbound)
  obtain ⟨last, hreduce⟩ := hc.reduce hyields (stops_barrier _ b stack)
  refine ⟨last, ?_⟩
  simp only [step, binary, hreduce]
  rfl

theorem step_question {text : List Char} (hc : c.Holds limits stack bound records)
    (hbound : bound < 16) (hstops : Stops (Pending.yields .question) stack)
    (h : stack.length < limits.maxStackDepth) (hrecords : records.length + 1 ≤ limits.maxRecords) :
    step scanNumber limits c ⟨pos, text, .ternary .question⟩ =
      .ok ⟨.barrier (.question pos records.length) :: stack,
        .ofRecords (records ++ Expr.single (.branchIfFalse ⟨none, true⟩) pos)
          (some records.length)⟩ := by
  have hyields : ∀ p : Pending, p.precedence ≤ bound → p.yields .question = true := by
    intro p hp
    exact decide_eq_true (Nat.lt_of_le_of_lt hp hbound)
  obtain ⟨last, hreduce⟩ := hc.reduce hyields hstops
  simp only [step, question, hreduce, bind, Except.bind, emit_eq hrecords,
    Assembly.size_ofRecords]
  exact push_eq h

-- Everything down to a barrier is applied.
theorem Holds.flush {b : Barrier} (hc : c.Holds limits (.barrier b :: stack) bound records) :
    ∃ last, c.flush limits = .ok ⟨.barrier b :: stack, .ofRecords records last⟩ :=
  hc.reduce (fun _ _ => rfl) (stops_barrier _ b stack)

theorem step_colon {text : List Char} {start origin : Nat} {before after : List Record}
    (hc : c.Holds limits (.barrier (.question start before.length) :: stack) bound
      (before ++ Expr.single (.branchIfFalse ⟨none, true⟩) origin ++ after))
    (h : stack.length < limits.maxStackDepth)
    (hrecords : before.length + 1 + after.length + 1 ≤ limits.maxRecords) :
    step scanNumber limits c ⟨pos, text, .ternary .colon⟩ =
      .ok ⟨.pending (.colon pos (before.length + 1 + after.length)) :: stack,
        .ofRecords (before ++ Expr.single
          (.branchIfFalse ⟨some (before.length + 1 + after.length + 1), true⟩) origin ++
          (after ++ Expr.single (.goto none) pos)) (some (before.length + 1 + after.length))⟩ := by
  obtain ⟨last, hflush⟩ := hc.flush
  have hlength : (before ++ Expr.single (.branchIfFalse ⟨none, true⟩) origin ++ after).length =
      before.length + 1 + after.length := by
    simp only [Expr.single, List.length_append, List.length_singleton]
  have hemit : (Assembly.ofRecords
      (before ++ Expr.single (.branchIfFalse ⟨none, true⟩) origin ++ after) last).emit
        limits.maxRecords (.goto none) pos = _ := Assembly.emit_ofRecords (by omega)
  rw [hlength, List.append_assoc _ after] at hemit
  have hpatch : (Assembly.ofRecords (before ++ Expr.single (.branchIfFalse ⟨none, true⟩) origin ++
      (after ++ Expr.single (.goto none) pos)) (some (before.length + 1 + after.length))).patch
        before.length = _ := Assembly.patch_ofRecords rfl
  have htarget : (before ++ Expr.single (.branchIfFalse ⟨none, true⟩) origin ++
      (after ++ Expr.single (.goto none) pos)).length = before.length + 1 + after.length + 1 := by
    simp only [Expr.single, List.length_append, List.length_singleton]
    omega
  rw [htarget] at hpatch
  simp only [step, colon, hflush, bind, Except.bind, Assembly.size_ofRecords, hlength, hemit,
    hpatch]
  exact push_eq h

-- The right side of `&&` or `||` is complete, and its branch leads behind it.
theorem apply_logical {op : Operator} {branch : Branch → Op} {origin limit : Nat}
    {before after : List Record} (hop : Expr.shortcut? op = some branch)
    (hrecords : before.length + 1 + after.length + 1 ≤ limit) :
    Pending.apply limit
        (.ofRecords (before ++ Expr.single (branch ⟨none, false⟩) origin ++ after) last)
        (.logical op pos before.length) =
      .ok (.ofRecords (before ++ Expr.single
          (branch ⟨some (before.length + 1 + after.length + 1), false⟩) origin ++
          (after ++ Expr.single .makeBool pos)) (some (before.length + 1 + after.length))) := by
  have hlength : (before ++ Expr.single (branch ⟨none, false⟩) origin ++ after).length =
      before.length + 1 + after.length := by
    simp only [Expr.single, List.length_append, List.length_singleton]
  have hemit : (Assembly.ofRecords
      (before ++ Expr.single (branch ⟨none, false⟩) origin ++ after) last).emit limit .makeBool
        pos = _ := Assembly.emit_ofRecords (by omega)
  rw [hlength, List.append_assoc _ after] at hemit
  have htarget : (branch ⟨none, false⟩).withTarget? (before.length + 1 + after.length + 1) =
      some (branch ⟨some (before.length + 1 + after.length + 1), false⟩) := by
    rcases Expr.shortcut?_cases hop with ⟨-, rfl⟩ | ⟨-, rfl⟩ <;> rfl
  have hpatch : (Assembly.ofRecords (before ++ Expr.single (branch ⟨none, false⟩) origin ++
      (after ++ Expr.single .makeBool pos)) (some (before.length + 1 + after.length))).patch
        before.length = .ok (.ofRecords (before ++ Expr.single
          (branch ⟨some (before.length + 1 + after.length + 1), false⟩) origin ++
          (after ++ Expr.single .makeBool pos)) (some (before.length + 1 + after.length))) := by
    refine Assembly.patch_ofRecords ?_
    rw [← htarget]
    congr 1
    simp only [Expr.single, List.length_append, List.length_singleton]
    omega
  simp only [Pending.apply, hemit, bind, Except.bind, hpatch]

-- The else part is complete, and the jump over it leads behind it.
theorem apply_colon {origin limit goto : Nat} {before after : List Record}
    (hgoto : before.length = goto) :
    Pending.apply limit
        (.ofRecords (before ++ Expr.single (.goto none) origin ++ after) last) (.colon pos goto) =
      .ok (.ofRecords (before ++ Expr.single
          (.goto (some (goto + 1 + after.length))) origin ++ after) none) := by
  subst hgoto
  have hlength : (before ++ Expr.single (.goto none) origin ++ after).length =
      before.length + 1 + after.length := by
    simp only [Expr.single, List.length_append, List.length_singleton]
  have hpatch : (Assembly.ofRecords (before ++ Expr.single (.goto none) origin ++ after)
      last).patch before.length = _ := Assembly.patch_ofRecords rfl
  rw [hlength] at hpatch
  simp only [Pending.apply, hpatch, bind, Except.bind]
  rfl

section Places

variable {before : List Record} {op pointer : Op} {len : Nat} {origin : UInt32} {chunks : List Chunk}
  (hpointer : op.pointerForm? = some pointer)

include hpointer

-- What was read last becomes the place to assign to.
theorem step_assign {assignment : Assignment} {text : List Char}
    (hstops : Stops Pending.yieldsToAssignment stack) (h : stack.length < limits.maxStackDepth) :
    step scanNumber limits
        ⟨stack, .ofRecords (before ++ Code.block ⟨op, len, origin⟩ chunks) (some before.length)⟩
        ⟨pos, text, .assign assignment⟩ =
      .ok ⟨.pending (.assign assignment pos) :: stack,
        .ofRecords (before ++ Code.block ⟨pointer, len, origin⟩ chunks) (some before.length)⟩ := by
  simp only [step, reduce_of_stops hstops, bind, Except.bind, pointerize,
    Assembly.pointerize_ofRecords hpointer]
  exact push_eq h

theorem step_after {step : Operator} {text : List Char}
    (hrecords : (before ++ Code.block ⟨pointer, len, origin⟩ chunks).length + 1 ≤
      limits.maxRecords) :
    Compiler.step scanNumber limits
        ⟨stack, .ofRecords (before ++ Code.block ⟨op, len, origin⟩ chunks) (some before.length)⟩
        ⟨pos, text, .stepAfter step⟩ =
      .ok ⟨stack, .ofRecords (before ++ Code.block ⟨pointer, len, origin⟩ chunks ++
        Expr.single (.incDec step) pos)
        (some (before ++ Code.block ⟨pointer, len, origin⟩ chunks).length)⟩ := by
  simp only [Compiler.step, bind, Except.bind, pointerize,
    Assembly.pointerize_ofRecords hpointer]
  exact emit_eq hrecords

-- An increment in front of a name is applied once the name is there.
theorem apply_stepBefore (step : Step) (limit : Nat)
    (hrecords : (before ++ Code.block ⟨pointer, len, origin⟩ chunks).length + 1 ≤ limit) :
    Pending.apply limit
        (.ofRecords (before ++ Code.block ⟨op, len, origin⟩ chunks) (some before.length))
        (.operator step.before pos) =
      .ok (.ofRecords (before ++ Code.block ⟨pointer, len, origin⟩ chunks ++
        Expr.single (.incDec step.before) pos)
        (some (before ++ Code.block ⟨pointer, len, origin⟩ chunks).length)) := by
  cases step with
  | increment | decrement =>
      simp only [Step.before, Pending.apply, bind, Except.bind,
        Assembly.pointerize_ofRecords hpointer]
      exact Assembly.emit_ofRecords hrecords

end Places

section Groups

variable {text : List Char} {group : Group}

theorem step_opening {output : Assembly}
    (hstops : Stops Pending.yieldsToAccess stack) (h : stack.length < limits.maxStackDepth) :
    step scanNumber limits ⟨stack, output⟩ ⟨pos, text, .opening group⟩ =
      .ok ⟨.barrier (.bracket group pos) :: stack, output⟩ := by
  have hpush : push limits ⟨stack, output⟩ (.barrier (.bracket group pos)) = _ := push_eq h
  cases group with
  | call | subscript =>
      simp only [step, openGroup, reduce_of_stops hstops, bind, Except.bind, hpush]
  | subExpr | list | dict | substArgs => exact hpush

theorem closeGroup_paren {start : Nat}
    (hc : c.Holds limits (.barrier (.bracket .subExpr start) :: stack) bound records) (pos : Nat)
    (text : List Char) :
    ∃ last, step scanNumber limits c ⟨pos, text, .closing .subExpr⟩ =
      .ok ⟨stack, .ofRecords records last⟩ := by
  obtain ⟨last, hflush⟩ := hc.flush
  refine ⟨last, ?_⟩
  simp only [step, closeGroup, hflush, bind, Except.bind, belowBracket, Closing.group, if_true]
  rfl

-- The other groups of a tree end with an instruction.
theorem closeGroup_emit {start : Nat} {found : Closing} {op : Op}
    (hfound : (∃ items, found = .list items ∧ op = .makeList items) ∨
      (∃ items, found = .call items ∧ op = .call items) ∨
      found = .subscript .index ∧ op = .sliceValue .index)
    (hc : c.Holds limits (.barrier (.bracket found.group start) :: stack) bound records)
    (hrecords : records.length + 1 ≤ limits.maxRecords) :
    step scanNumber limits c ⟨pos, text, .closing found⟩ =
      .ok ⟨stack, .ofRecords (records ++ Expr.single op pos) (some records.length)⟩ := by
  obtain ⟨last, hflush⟩ := hc.flush
  have hemit : emit limits ⟨stack, .ofRecords records last⟩ op pos = _ := emit_eq hrecords
  rcases hfound with ⟨items, rfl, rfl⟩ | ⟨items, rfl, rfl⟩ | ⟨rfl, rfl⟩ <;>
  · simp only [step, closeGroup, hflush, bind, Except.bind, belowBracket, Closing.group, if_true]
    exact hemit

theorem step_finish {items : Nat} (hc : c.Holds limits [] bound records)
    (hrecords : records.length + 1 ≤ limits.maxRecords) :
    step scanNumber limits c ⟨pos, text, .finish items⟩ =
      .ok ⟨[], .ofRecords (records ++ Expr.single .ret pos) (some records.length)⟩ := by
  have hstops : Stops (fun _ => true) [] := by
    intro p rest hstack
    cases hstack
  obtain ⟨last, hflush⟩ := hc.reduce (fun _ _ => rfl) hstops
  have hflush : c.flush limits = .ok ⟨[], .ofRecords records last⟩ := hflush
  simp only [step, finish, hflush, bind, Except.bind]
  exact emit_eq hrecords

end Groups

end Compiler

end FormulaCode
