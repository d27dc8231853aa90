import FormulaCode.Proofs.Expr.Eval

namespace FormulaCode

theorem Name.zero_not_mem (word : Name) : '\x00' ∉ word.chars := by
  intro hzero
  exact absurd (List.all_eq_true.mp word.ident _ hzero) (by decide)

namespace Interpretation

variable {σ ν : Type} {I : Interpretation σ ν} {code : Code} {base pos : Nat} {state : σ}
  {stack : List ν} {answer : Option (σ × List ν)}

-- An instruction that makes a value of its operands.
theorem ends_act {instr : Instr} {text : Option (List Char)} (hinstr : code.instr? base = some instr)
    (htext : code.textAt? base = text) (hop : instr.op.pushes = 1) (operands : List ν)
    (hoperands : operands.length = instr.op.pops)
    (h : I.machine.Ends code ⟨base + instr.len, (I.act instr.op text operands state).2,
      (I.act instr.op text operands state).1 :: stack⟩ answer) :
    I.machine.Ends code ⟨base, state, operands.reverse ++ stack⟩ answer := by
  refine .step ?_ h
  have htake : ((operands.reverse ++ stack).take instr.op.pops).reverse = operands := by
    rw [List.take_append_of_le_length (by simp [hoperands]),
      List.take_of_length_le (by simp [hoperands]), List.reverse_reverse]
  have hdrop : (operands.reverse ++ stack).drop instr.op.pops = stack := by
    rw [← hoperands, ← List.length_reverse, List.drop_left]
  have hlength : ¬(operands.reverse ++ stack).length < instr.op.pops := by
    simp only [List.length_append, List.length_reverse]
    omega
  rw [Machine.step?_of_instr? hinstr, Machine.execute_act hop, htext]
  simp only [machine, if_neg hlength, htake, hdrop]
  rfl

theorem ends_single {op : Op} (hcode : code.Contains base (Expr.single op pos))
    (hop : op.pushes = 1) (operands : List ν) (hoperands : operands.length = op.pops)
    (h : I.machine.Ends code ⟨base + 1, (I.act op none operands state).2,
      (I.act op none operands state).1 :: stack⟩ answer) :
    I.machine.Ends code ⟨base, state, operands.reverse ++ stack⟩ answer := by
  rw [Expr.single_eq_block] at hcode
  exact ends_act hcode.instr? (hcode.textAt? rfl) hop operands hoperands h

theorem ends_naming {op : Op} {word : Name} (hcode : code.Contains base (Expr.naming op word pos))
    (hpushes : op.pushes = 1) (hpops : op.pops = 0)
    (h : I.machine.Ends code ⟨base + (Expr.naming op word pos).length,
      (I.act op (some word.chars) [] state).2, (I.act op (some word.chars) [] state).1 :: stack⟩
      answer) :
    I.machine.Ends code ⟨base, state, stack⟩ answer := by
  have htext : code.textAt? base = some word.chars := by
    rw [Expr.naming] at hcode
    exact (hcode.textAt? rfl).trans (payloadText?_of_zero_not_mem word.zero_not_mem)
  rw [Expr.length_naming] at h
  exact ends_act hcode.instr? htext hpushes [] hpops.symm h

-- A conditional jump on a condition that is on top of the stack.
theorem ends_branch {wanted : Bool} {op : Branch → Op} {target : Nat} {pop : Bool} {value : ν}
    (hop : (wanted = false ∧ op = .branchIfFalse) ∨ (wanted = true ∧ op = .branchIfTrue))
    (hcode : code.Contains base (Expr.single (op ⟨some target, pop⟩) pos))
    (hjump : I.truth value = wanted → I.machine.Ends code
      ⟨target, state, if pop then stack else I.ofBool wanted :: stack⟩ answer)
    (hfall : I.truth value ≠ wanted → I.machine.Ends code ⟨base + 1, state, stack⟩ answer) :
    I.machine.Ends code ⟨base, state, value :: stack⟩ answer := by
  rw [Expr.single_eq_block] at hcode
  have hstep : I.machine.step? code ⟨base, state, value :: stack⟩ =
      I.machine.branch wanted ⟨some target, pop⟩ (base + 1) ⟨base, state, value :: stack⟩ := by
    rw [Machine.step?_of_instr? hcode.instr?, Machine.execute]
    rcases hop with ⟨rfl, rfl⟩ | ⟨rfl, rfl⟩ <;> rfl
  by_cases htruth : I.truth value = wanted
  · refine .step ?_ (hjump htruth)
    rw [hstep, Machine.branch]
    simp [machine, htruth]
  · refine .step ?_ (hfall htruth)
    rw [hstep, Machine.branch]
    simp [machine, htruth]

theorem ends_goto {target : Nat} (hcode : code.Contains base (Expr.single (.goto (some target)) pos))
    (h : I.machine.Ends code ⟨target, state, stack⟩ answer) :
    I.machine.Ends code ⟨base, state, stack⟩ answer := by
  rw [Expr.single_eq_block] at hcode
  refine .step ?_ h
  rw [Machine.step?_of_instr? hcode.instr?]
  rfl

end Interpretation

namespace Expr

section Run

variable {σ ν : Type} {I : Interpretation σ ν}

-- The code of a tree leaves its value on the stack: a run from behind the code, with the value
-- there, is a run from the start of the code.
def Runs (I : Interpretation σ ν) (t : Expr) : Prop :=
  ∀ {code : Code} {base pos : Nat}, code.Contains base (t.records pos base) →
    ∀ {state : σ} {stack : List ν} {answer : Option (σ × List ν)},
      I.machine.Ends code
        ⟨base + (t.records pos base).length, (t.eval I state).2, (t.eval I state).1 :: stack⟩
        answer →
      I.machine.Ends code ⟨base, state, stack⟩ answer

theorem runs_number (digits : Digits) : (number digits).Runs I := by
  intro code base pos hcode state stack answer h
  exact Interpretation.ends_single hcode rfl [] rfl h

theorem runs_name (word : Name) : (name word).Runs I := by
  intro code base pos hcode state stack answer h
  exact Interpretation.ends_naming hcode rfl rfl h

theorem runs_unary {op : Spelled Operator.unarySpellings} {operand : Expr}
    (ih : operand.Runs I) : (unary op operand).Runs I := by
  intro code base pos hcode state stack answer h
  have harity : ∀ entry ∈ Operator.unarySpellings, entry.2.arity = 1 := by decide
  rw [records] at hcode h
  rw [List.length_append, ← Nat.add_assoc] at h
  exact ih hcode.left (Interpretation.ends_single hcode.right rfl [_] (harity _ op.mem).symm h)

theorem runs_binary {op : Spelled Operator.binarySpellings} {left right : Expr}
    (hop : shortcut? op.meaning = none) (ihleft : left.Runs I) (ihright : right.Runs I) :
    (binary op left right).Runs I := by
  intro code base pos hcode state stack answer h
  have harity : ∀ entry ∈ Operator.binarySpellings, entry.2.arity = 2 := by decide
  have heval : (binary op left right).eval I = (do
      let first ← left.eval I
      let second ← right.eval I
      I.act (.operator op.meaning) none [first, second]) := by
    rw [eval]
    cases hmeaning : op.meaning <;> simp_all [shortcut?]
  simp only [records, hop] at hcode h
  simp only [List.length_append, ← Nat.add_assoc] at h
  rw [heval] at h
  have hjoin := hcode.right
  rw [List.length_append, ← Nat.add_assoc] at hjoin
  refine ihleft hcode.left.left (ihright hcode.left.right ?_)
  exact Interpretation.ends_single hjoin rfl [_, _] (harity _ op.mem).symm h

-- The branch leaves out the right side if the left side is what it waits for.
theorem eval_shortcut {op : Spelled Operator.binarySpellings} {branch : Branch → Op}
    (I : Interpretation σ ν) (hop : shortcut? op.meaning = some branch) (left right : Expr) :
    ∃ wanted, ((wanted = false ∧ branch = .branchIfFalse) ∨
        (wanted = true ∧ branch = .branchIfTrue)) ∧
      ∀ state, (binary op left right).eval I state =
        let first := left.eval I state
        let second := right.eval I first.2
        if I.truth first.1 = wanted then (I.ofBool wanted, first.2)
        else (I.ofBool (I.truth second.1), second.2) := by
  rcases shortcut?_cases hop with ⟨hmeaning, hbranch⟩ | ⟨hmeaning, hbranch⟩
  · refine ⟨false, Or.inl ⟨rfl, hbranch⟩, fun state => ?_⟩
    rw [eval, hmeaning]
    change (ite _ _ _ : StateM σ ν) (left.eval I state).2 = ite _ _ _
    cases I.truth (left.eval I state).1 <;> rfl
  · refine ⟨true, Or.inr ⟨rfl, hbranch⟩, fun state => ?_⟩
    rw [eval, hmeaning]
    change (ite _ _ _ : StateM σ ν) (left.eval I state).2 = ite _ _ _
    cases I.truth (left.eval I state).1 <;> rfl

theorem runs_shortcut {op : Spelled Operator.binarySpellings} {branch : Branch → Op}
    {left right : Expr} (hop : shortcut? op.meaning = some branch) (ihleft : left.Runs I)
    (ihright : right.Runs I) : (binary op left right).Runs I := by
  intro code base pos hcode state stack answer h
  obtain ⟨wanted, hwanted, heval⟩ := eval_shortcut I hop left right
  simp only [records, hop] at hcode h
  simp only [List.length_append, ← Nat.add_assoc] at h
  rw [heval] at h
  have hsecond := hcode.left.right
  have hmakeBool := hcode.right
  simp only [List.length_append, ← Nat.add_assoc] at hsecond hmakeBool
  refine ihleft hcode.left.left.left (Interpretation.ends_branch hwanted hcode.left.left.right ?_ ?_)
  · intro htruth
    simp only [if_pos htruth] at h
    exact h
  · intro htruth
    simp only [if_neg htruth] at h
    refine ihright hsecond (Interpretation.ends_single hmakeBool rfl [_] rfl ?_)
    rw [I.act_makeBool]
    exact h

theorem runs_ternary {condition yes no : Expr} (ihcondition : condition.Runs I)
    (ihyes : yes.Runs I) (ihno : no.Runs I) : (ternary condition yes no).Runs I := by
  intro code base pos hcode state stack answer h
  have heval : (ternary condition yes no).eval I state =
      if I.truth (condition.eval I state).1 then yes.eval I (condition.eval I state).2
      else no.eval I (condition.eval I state).2 := by
    rw [eval]
    change (ite _ _ _ : StateM σ ν) (condition.eval I state).2 = _
    split <;> rfl
  simp only [records] at hcode h
  simp only [List.length_append, ← Nat.add_assoc] at h
  rw [heval] at h
  have hyes := hcode.left.left.right
  have hgoto := hcode.left.right
  have hno := hcode.right
  simp only [List.length_append, ← Nat.add_assoc] at hyes hgoto hno
  refine ihcondition hcode.left.left.left.left
    (Interpretation.ends_branch (Or.inl ⟨rfl, rfl⟩) hcode.left.left.left.right ?_ ?_)
  · intro htruth
    simp only [htruth, Bool.false_eq_true, if_false] at h
    exact ihno hno h
  · intro htruth
    simp only [Bool.not_eq_false] at htruth
    simp only [if_pos htruth] at h
    exact ihyes hyes (Interpretation.ends_goto hgoto h)

theorem runs_assign {op : Spelled Assignment.spellings} {target : Name} {value : Expr}
    (ih : value.Runs I) : (assign op target value).Runs I := by
  intro code base pos hcode state stack answer h
  simp only [records] at hcode h
  simp only [List.length_append, ← Nat.add_assoc] at h
  have hassign := hcode.right
  simp only [List.length_append, ← Nat.add_assoc] at hassign
  refine Interpretation.ends_naming hcode.left.left rfl rfl (ih hcode.left.right ?_)
  exact Interpretation.ends_single hassign rfl [_, _] rfl h

theorem runs_assignElement {op : Spelled Assignment.spellings} {target : Name}
    {index value : Expr} (ihindex : index.Runs I) (ihvalue : value.Runs I) :
    (assignElement op target index value).Runs I := by
  intro code base pos hcode state stack answer h
  simp only [records] at hcode h
  have hplace := hcode.left.left.right
  have hvalue := hcode.left.right
  have hassign := hcode.right
  simp only [List.length_append, ← Nat.add_assoc] at h hplace hvalue hassign
  refine Interpretation.ends_naming hcode.left.left.left.left rfl rfl
    (ihindex hcode.left.left.left.right ?_)
  refine Interpretation.ends_single hplace rfl [_, _] rfl (ihvalue hvalue ?_)
  exact Interpretation.ends_single hassign rfl [_, _] rfl h

theorem runs_stepBefore (step : Step) (word : Name) : (stepBefore step word).Runs I := by
  intro code base pos hcode state stack answer h
  simp only [records] at hcode h
  simp only [List.length_append, ← Nat.add_assoc] at h
  refine Interpretation.ends_naming hcode.left rfl rfl ?_
  exact Interpretation.ends_single hcode.right rfl [_] rfl h

theorem runs_stepAfter (step : Step) (word : Name) : (stepAfter step word).Runs I := by
  intro code base pos hcode state stack answer h
  simp only [records] at hcode h
  simp only [List.length_append, ← Nat.add_assoc] at h
  refine Interpretation.ends_naming hcode.left rfl rfl ?_
  exact Interpretation.ends_single hcode.right rfl [_] rfl h

theorem runs_sequence {left right : Expr} (ihleft : left.Runs I) (ihright : right.Runs I) :
    (sequence left right).Runs I := by
  intro code base pos hcode state stack answer h
  simp only [records] at hcode h
  have hjoin := hcode.right
  simp only [List.length_append, ← Nat.add_assoc] at h hjoin
  refine ihleft hcode.left.left (ihright hcode.left.right ?_)
  exact Interpretation.ends_single hjoin rfl [_, _] rfl h

theorem runs_element {word : Name} {index : Expr} (ih : index.Runs I) :
    (element word index).Runs I := by
  intro code base pos hcode state stack answer h
  simp only [records] at hcode h
  have hslice := hcode.right
  simp only [List.length_append, ← Nat.add_assoc] at h hslice
  refine Interpretation.ends_naming hcode.left.left rfl rfl (ih hcode.left.right ?_)
  exact Interpretation.ends_single hslice rfl [_, _] rfl h

theorem length_evalItems (items : List Expr) (state : σ) :
    (evalItems I items state).1.length = items.length := by
  induction items generalizing state with
  | nil => rfl
  | cons item more ih => exact congrArg Nat.succ (ih _)

theorem evalItems_cons_append (item : Expr) (more : List Expr) (state : σ) (stack : List ν) :
    (evalItems I (item :: more) state).1.reverse ++ stack =
      (evalItems I more (item.eval I state).2).1.reverse ++ (item.eval I state).1 :: stack := by
  change ((item.eval I state).1 :: (evalItems I more (item.eval I state).2).1).reverse ++ stack = _
  rw [List.reverse_cons, List.append_assoc]
  rfl

-- The values of items lie on the stack with the last one on top.
theorem ends_more {items : List Expr} (ih : ∀ item ∈ items, item.Runs I) {code : Code}
    {base pos : Nat} (hcode : code.Contains base (moreRecords items pos base)) {state : σ}
    {stack : List ν} {answer : Option (σ × List ν)}
    (h : I.machine.Ends code ⟨base + (moreRecords items pos base).length,
      (evalItems I items state).2, (evalItems I items state).1.reverse ++ stack⟩ answer) :
    I.machine.Ends code ⟨base, state, stack⟩ answer := by
  induction items generalizing base pos state stack with
  | nil => exact h
  | cons item more ihmore =>
      simp only [moreRecords] at hcode h
      simp only [List.length_append, ← Nat.add_assoc] at h
      rw [evalItems_cons_append] at h
      refine ih item List.mem_cons_self hcode.left ?_
      exact ihmore (fun other hother => ih other (List.mem_cons_of_mem _ hother)) hcode.right h

theorem ends_items {items : List Expr} (ih : ∀ item ∈ items, item.Runs I) {code : Code}
    {base pos : Nat} (hcode : code.Contains base (itemsRecords items pos base)) {state : σ}
    {stack : List ν} {answer : Option (σ × List ν)}
    (h : I.machine.Ends code ⟨base + (itemsRecords items pos base).length,
      (evalItems I items state).2, (evalItems I items state).1.reverse ++ stack⟩ answer) :
    I.machine.Ends code ⟨base, state, stack⟩ answer := by
  cases items with
  | nil => exact h
  | cons item more =>
      simp only [itemsRecords] at hcode h
      simp only [List.length_append, ← Nat.add_assoc] at h
      rw [evalItems_cons_append] at h
      refine ih item List.mem_cons_self hcode.left ?_
      exact ends_more (fun other hother => ih other (List.mem_cons_of_mem _ hother)) hcode.right h

theorem runs_list {items : List Expr} (ih : ∀ item ∈ items, item.Runs I) :
    (list items).Runs I := by
  intro code base pos hcode state stack answer h
  simp only [records] at hcode h
  simp only [List.length_append, ← Nat.add_assoc] at h
  refine ends_items ih hcode.left ?_
  exact Interpretation.ends_single hcode.right rfl _ (length_evalItems items state) h

theorem runs_call {function : Name} {arguments : List Expr}
    (ih : ∀ item ∈ arguments, item.Runs I) : (call function arguments).Runs I := by
  intro code base pos hcode state stack answer h
  simp only [records] at hcode h
  have hcall := hcode.right
  simp only [List.length_append, ← Nat.add_assoc] at h hcall
  refine Interpretation.ends_naming hcode.left.left rfl rfl (ends_items ih hcode.left.right ?_)
  have hoperands := Interpretation.ends_single hcall rfl
    ((I.act .lookupValue (some function.chars) [] state).1 ::
      (evalItems I arguments (I.act .lookupValue (some function.chars) [] state).2).1)
    (congrArg Nat.succ (length_evalItems arguments _)) h
  simpa using hoperands

theorem runs (I : Interpretation σ ν) (t : Expr) : t.Runs I := by
  induction t with
  | number digits => exact runs_number digits
  | name word => exact runs_name word
  | paren inner ih => exact ih
  | unary op operand ih => exact runs_unary ih
  | binary op left right ihleft ihright =>
      cases hop : shortcut? op.meaning with
      | none => exact runs_binary hop ihleft ihright
      | some branch => exact runs_shortcut hop ihleft ihright
  | ternary condition yes no ihcondition ihyes ihno => exact runs_ternary ihcondition ihyes ihno
  | assign op target value ih => exact runs_assign ih
  | assignElement op target index value ihindex ihvalue =>
      exact runs_assignElement ihindex ihvalue
  | stepBefore step word => exact runs_stepBefore step word
  | stepAfter step word => exact runs_stepAfter step word
  | sequence left right ihleft ihright => exact runs_sequence ihleft ihright
  | list items ih => exact runs_list ih
  | call function arguments ih => exact runs_call ih
  | element word index ih => exact runs_element ih

-- The code of a whole formula returns with the value of its tree and nothing else.
theorem ends_code (I : Interpretation σ ν) (t : Expr) (state : σ) :
    I.machine.Ends t.code ⟨0, state, []⟩
      (some ((t.eval I state).2, [(t.eval I state).1])) := by
  have hcode : t.code.Contains 0 (t.records 0 0 ++ single .ret t.width) :=
    ⟨[], [], by simp [code], rfl⟩
  have hret := hcode.right
  rw [single_eq_block] at hret
  exact runs I t hcode.left (Machine.Ends.ret hret.instr? rfl)

end Run

end Expr

end FormulaCode
