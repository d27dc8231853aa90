import FormulaCode.Proofs.Expr.Steps

namespace FormulaCode

-- The loosest operator that may still wait when a tree of the level has been read. The last
-- operand of `**` may be a unary operator, and that of `:` an assignment.
def cap (level : Nat) : Nat :=
  if level = 2 then 3 else if level = 16 then 17 else level

theorem cap_le {level bound : Nat} (hle : level ≤ bound) (hpower : level = 2 → 3 ≤ bound)
    (hternary : level = 16 → 17 ≤ bound) : cap level ≤ bound := by
  rw [cap]
  split
  · rename_i h
    exact hpower h
  · split
    · rename_i h
      exact hternary h
    · exact hle

namespace Expr

open Compiler

-- The compiler turns the tokens of a tree into its code, on top of any stack that the tree's own
-- operators do not reach into.
def Compiles (limits : Limits) (t : Expr) : Prop :=
  ∀ stack before last pos, Guards stack t.level →
    before.length + (t.records pos before.length).length ≤ limits.maxRecords →
    stack.length + t.depth ≤ limits.maxStackDepth →
    ∃ c, run limits ⟨stack, .ofRecords before last⟩ (t.tokens pos) = .ok c ∧
      c.Holds limits stack (cap t.level) (before ++ t.records pos before.length)

section Tables

theorem binary_apply (op : Spelled Operator.binarySpellings) (pos limit : Nat) (a : Assembly) :
    (Pending.operator op.meaning pos).precedence = op.meaning.precedence ∧
      (Pending.operator op.meaning pos).apply limit a =
        a.emit limit (.operator op.meaning) pos := by
  have htable : ∀ entry ∈ Operator.binarySpellings,
      (Pending.operator entry.2 pos).precedence = entry.2.precedence ∧
        (Pending.operator entry.2 pos).apply limit a = a.emit limit (.operator entry.2) pos := by
    simp only [Operator.binarySpellings, List.forall_mem_cons, List.not_mem_nil, false_imp_iff,
      implies_true, and_true]
    and_intros <;> rfl
  exact htable _ op.mem

theorem unary_apply (op : Spelled Operator.unarySpellings) (pos limit : Nat) (a : Assembly) :
    (Pending.operator op.meaning pos).apply limit a = a.emit limit (.operator op.meaning) pos := by
  have htable : ∀ entry ∈ Operator.unarySpellings,
      (Pending.operator entry.2 pos).apply limit a = a.emit limit (.operator entry.2) pos := by
    simp only [Operator.unarySpellings, List.forall_mem_cons, List.not_mem_nil, false_imp_iff,
      implies_true, and_true]
    and_intros <;> rfl
  exact htable _ op.mem

theorem unary_pending (op : Spelled Operator.unarySpellings) (pos : Nat) :
    (Pending.operator op.meaning pos).precedence = 3 ∧
      (Pending.operator op.meaning pos).allows = 2 := by
  have htable : ∀ entry ∈ Operator.unarySpellings,
      (Pending.operator entry.2 pos).precedence = 3 ∧
        (Pending.operator entry.2 pos).allows = 2 := by
    simp only [Operator.unarySpellings, List.forall_mem_cons, List.not_mem_nil, false_imp_iff,
      implies_true, and_true]
    and_intros <;> rfl
  exact htable _ op.mem

theorem unary_precedence (op : Spelled Operator.unarySpellings) :
    op.meaning.precedence = 3 ∧ op.meaning.rightAssoc = true := by
  have htable : ∀ entry ∈ Operator.unarySpellings,
      entry.2.precedence = 3 ∧ entry.2.rightAssoc = true := by decide
  exact htable _ op.mem

-- `**` is the one binary operator that takes its operands from right to left.
theorem binary_cases (op : Spelled Operator.binarySpellings) :
    op.meaning = .power ∨ op.meaning.rightAssoc = false ∧ 5 ≤ op.meaning.precedence ∧
      op.meaning.precedence ≤ 15 ∧ op.meaning ≠ .power := by
  have htable : ∀ entry ∈ Operator.binarySpellings,
      entry.2 = .power ∨ entry.2.rightAssoc = false ∧ 5 ≤ entry.2.precedence ∧
        entry.2.precedence ≤ 15 ∧ entry.2 ≠ .power := by decide
  exact htable _ op.mem

end Tables

section Trees

variable {limits : Limits}

theorem compiles_number (digits : Digits) : Compiles limits (number digits) := by
  intro stack before last pos _ hrecords _
  exact ⟨_, run_cons (step_number digits hrecords), holds_done _ _⟩

theorem compiles_name (word : Name) : Compiles limits (name word) := by
  intro stack before last pos _ hrecords _
  exact ⟨_, run_cons (step_name word hrecords), holds_done _ _⟩

theorem compiles_paren {inner : Expr} (hinner : Compiles limits inner) :
    Compiles limits (paren inner) := by
  intro stack before last pos hguards hrecords hstack
  rw [depth] at hstack
  obtain ⟨c, hrun, hc⟩ := hinner (.barrier (.bracket .subExpr pos) :: stack) before last (pos + 2)
    (guards_barrier _ _ _) hrecords (by rw [List.length_cons]; omega)
  obtain ⟨last', hclose⟩ := closeGroup_paren hc (pos + 2 + inner.width + 1) [')']
  refine ⟨_, ?_, holds_done last' _⟩
  rw [tokens, List.append_assoc, List.singleton_append,
    run_cons (step_opening hguards.stops_access (by omega)), run_append hrun, run_cons hclose]
  rfl

theorem compiles_unary {op : Spelled Operator.unarySpellings} {operand : Expr}
    (hfits : (unary op operand).Fits) (hoperand : Compiles limits operand) :
    Compiles limits (unary op operand) := by
  intro stack before last pos hguards hrecords hstack
  simp only [records, single, List.length_append, List.length_singleton] at hrecords
  rw [depth] at hstack
  obtain ⟨hprecedence, hright⟩ := unary_precedence op
  have hstops : Stops (Pending.yieldsToUnary op.meaning) stack :=
    hguards.stops_unary (by simp [level]) hprecedence hright
  obtain ⟨hpending, hallows⟩ := unary_pending op pos
  have hnext : Guards (.pending (.operator op.meaning pos) :: stack) operand.level :=
    guards_pending (.operator op.meaning pos) True.intro (by rw [hallows]; exact hfits.1) stack
  obtain ⟨c, hrun, hc⟩ := hoperand (.pending (.operator op.meaning pos) :: stack) before last
    (pos + byteLength op.spelling + 1) hnext (by omega) (by rw [List.length_cons]; omega)
  refine ⟨c, ?_, ?_⟩
  · rw [tokens, List.singleton_append, run_cons (step_before (Or.inl rfl) hstops (by omega)), hrun]
  · have hbound : cap operand.level ≤ 3 :=
      cap_le (by have := hfits.1; omega) (fun _ => Nat.le_refl 3) (by have := hfits.1; omega)
    have hholds := (hc.mono hbound).push_emit (Nat.le_of_eq hpending) (unary_apply op pos _)
      (by rw [List.length_append]; omega)
    rwa [List.append_assoc] at hholds

section Binary

variable {op : Spelled Operator.binarySpellings} {left right : Expr}

-- The levels of the operands of a binary operator.
theorem binary_slots (hfits : (binary op left right).Fits) :
    (op.meaning = .power ∧ left.level ≤ 1 ∧ right.level ≤ 3) ∨
      (op.meaning.rightAssoc = false ∧ 5 ≤ op.meaning.precedence ∧ op.meaning.precedence ≤ 15 ∧
        left.level ≤ op.meaning.precedence ∧ right.level < op.meaning.precedence ∧
        op.meaning ≠ .power) := by
  obtain ⟨hlevels, -, -⟩ := hfits
  rcases binary_cases op with hpower | ⟨hassoc, hlow, hhigh, hpower⟩
  · rw [if_pos hpower] at hlevels
    exact Or.inl ⟨hpower, hlevels.1, by omega⟩
  · rw [if_neg hpower] at hlevels
    exact Or.inr ⟨hassoc, hlow, hhigh, hlevels.1, hlevels.2, hpower⟩

theorem binary_yields (hfits : (binary op left right).Fits) (p : Pending)
    (hp : p.precedence ≤ cap left.level) : p.yields op.meaning = true := by
  rcases binary_slots hfits with ⟨hpower, hleft, -⟩ | ⟨hassoc, hlow, hhigh, hleft, -, -⟩
  · have hcap : cap left.level ≤ 1 := cap_le hleft (by omega) (by omega)
    rw [hpower]
    exact decide_eq_true (by change p.precedence < 2; omega)
  · have hcap : cap left.level ≤ op.meaning.precedence := cap_le hleft (by omega) (by omega)
    rw [Pending.yields, hassoc]
    exact decide_eq_true (by omega)

theorem binary_stops {stack : List Entry} (hguards : Guards stack (binary op left right).level) :
    Stops (Pending.yields op.meaning) stack := by
  rcases binary_cases op with hpower | ⟨hassoc, hlow, hhigh, hpower⟩
  · rw [level, hpower] at hguards
    rw [hpower]
    exact hguards.stops_power
  · exact hguards.stops_binary hassoc (by omega) (by omega)

theorem binary_left_le (hfits : (binary op left right).Fits) :
    left.level ≤ (binary op left right).level := by
  rw [level]
  rcases binary_slots hfits with ⟨hpower, hleft, -⟩ | ⟨-, -, -, hleft, -, -⟩
  · rw [hpower]
    exact Nat.le_trans hleft (by decide)
  · exact hleft

theorem binary_cap (hfits : (binary op left right).Fits) :
    cap right.level ≤ cap (binary op left right).level ∧
      op.meaning.precedence ≤ cap (binary op left right).level := by
  rw [level]
  rcases binary_slots hfits with ⟨hpower, -, hright⟩ | ⟨-, hlow, hhigh, -, hright, -⟩
  · rw [hpower]
    exact ⟨cap_le hright (fun _ => Nat.le_refl 3) (by omega), by decide⟩
  · have hcap : cap op.meaning.precedence = op.meaning.precedence := by
      rw [cap, if_neg (by omega), if_neg (by omega)]
    rw [hcap]
    exact ⟨cap_le (by omega) (by omega) (by omega), Nat.le_refl _⟩

theorem binary_allows (hfits : (binary op left right).Fits) (pos : Nat) :
    right.level ≤ (Pending.operator op.meaning pos).allows := by
  rcases binary_slots hfits with ⟨hpower, -, hright⟩ | ⟨-, -, -, -, hright, hpower⟩
  · rw [hpower]
    exact hright
  · have hprecedence := (binary_apply op pos 0 .empty).1
    have hfirm : (Pending.operator op.meaning pos).Firm := True.intro
    rcases Pending.allows_cases hfirm with ⟨pos', hp⟩ | ⟨pos', goto, hp⟩ | ⟨a, pos', hp⟩ | hp
    · exact absurd (Pending.operator.inj hp).1 hpower
    · cases hp
    · cases hp
    · omega

theorem compiles_plain_binary (hop : shortcut? op.meaning = none)
    (hfits : (binary op left right).Fits) (hleft : Compiles limits left)
    (hright : Compiles limits right) : Compiles limits (binary op left right) := by
  intro stack before last pos hguards hrecords hstack
  simp only [records, hop, single, List.length_append, List.length_singleton] at hrecords
  rw [depth] at hstack
  obtain ⟨c, hrun, hc⟩ := hleft stack before last pos (hguards.mono (binary_left_le hfits))
    (by omega) (by omega)
  have hcollect : op.meaning ≠ .collect := by
    have htable : ∀ entry ∈ Operator.binarySpellings, entry.2 ≠ .collect := by decide
    exact htable _ op.mem
  obtain ⟨last', hstep⟩ := step_binary hc (binary_yields hfits) (binary_stops hguards) hop hcollect
    (by omega) (pos + left.width + 1) op.spelling
  have hnext : Guards (.pending (.operator op.meaning (pos + left.width + 1)) :: stack)
      right.level :=
    guards_pending (.operator op.meaning _) True.intro (binary_allows hfits _) stack
  obtain ⟨c', hrun', hc'⟩ := hright _ (before ++ left.records pos before.length) last'
    (pos + left.width + 1 + byteLength op.spelling + 1) hnext
    (by rw [List.length_append]; omega) (by rw [List.length_cons]; omega)
  refine ⟨c', ?_, ?_⟩
  · rw [tokens, List.append_assoc, run_append hrun, List.singleton_append, run_cons hstep, hrun']
  · obtain ⟨hcap, hprecedence⟩ := binary_cap hfits
    have hholds := (hc'.mono hcap).push_emit
      (by rw [(binary_apply op _ 0 .empty).1]; exact hprecedence)
      (fun a => (binary_apply op _ _ a).2) (by simp only [List.length_append]; omega)
    simp only [records, hop]
    simpa only [List.append_assoc, List.length_append] using hholds

theorem compiles_logical {branch : Branch → Op} (hop : shortcut? op.meaning = some branch)
    (hfits : (binary op left right).Fits) (hleft : Compiles limits left)
    (hright : Compiles limits right) : Compiles limits (binary op left right) := by
  intro stack before last pos hguards hrecords hstack
  simp only [records, hop, single, List.length_append, List.length_singleton] at hrecords
  rw [depth] at hstack
  obtain ⟨c, hrun, hc⟩ := hleft stack before last pos (hguards.mono (binary_left_le hfits))
    (by omega) (by omega)
  have hlength : (before ++ left.records pos before.length).length =
      before.length + (left.records pos before.length).length := List.length_append
  have hstep : step scanNumber limits c ⟨pos + left.width + 1, op.spelling, .binary op.meaning⟩ = _ :=
    step_logical hc (binary_yields hfits) (binary_stops hguards) hop (by omega) (by omega)
  have hfirm : op.meaning = .logicalAnd ∨ op.meaning = .logicalOr :=
    (shortcut?_cases hop).imp And.left And.left
  have hlt : right.level < op.meaning.precedence := by
    rcases binary_slots hfits with ⟨hpower, -, -⟩ | ⟨-, -, -, -, hlt, -⟩
    · rw [hpower] at hop
      cases hop
    · exact hlt
  have hnext : Guards (.pending (.logical op.meaning (pos + left.width + 1)
      (before ++ left.records pos before.length).length) :: stack) right.level :=
    guards_pending (.logical op.meaning _ _) hfirm (by change _ ≤ op.meaning.precedence - 1; omega)
      stack
  obtain ⟨c', hrun', hc'⟩ := hright _
    (before ++ left.records pos before.length ++
      single (branch ⟨none, false⟩) (pos + left.width + 1)) _
    (pos + left.width + 1 + byteLength op.spelling + 1) hnext
    (by simp only [single, List.length_append, List.length_singleton]; omega)
    (by rw [List.length_cons]; omega)
  refine ⟨c', ?_, ?_⟩
  · rw [tokens, List.append_assoc, run_append hrun, List.singleton_append, run_cons hstep, hrun']
  · obtain ⟨hcap, hprecedence⟩ := binary_cap hfits
    have hholds := (hc'.mono hcap).push hprecedence fun last' =>
      ⟨_, apply_logical hop (by simp only [single, List.length_append, List.length_singleton]; omega)⟩
    simp only [records, hop]
    simpa only [single, List.append_assoc, List.length_append, List.length_singleton,
      Nat.add_assoc] using hholds

theorem compiles_binary (hfits : (binary op left right).Fits) (hleft : Compiles limits left)
    (hright : Compiles limits right) : Compiles limits (binary op left right) := by
  cases hop : shortcut? op.meaning with
  | none => exact compiles_plain_binary hop hfits hleft hright
  | some branch => exact compiles_logical hop hfits hleft hright

end Binary

theorem compiles_sequence {left right : Expr} (hfits : (sequence left right).Fits)
    (hleft : Compiles limits left) (hright : Compiles limits right) :
    Compiles limits (sequence left right) := by
  intro stack before last pos hguards hrecords hstack
  obtain ⟨hleftLevel, hrightLevel, -, -⟩ := hfits
  simp only [records, single, List.length_append, List.length_singleton] at hrecords
  rw [depth] at hstack
  have hstops : Stops (Pending.yields .sequence) stack :=
    hguards.stops_binary rfl (by decide) (by decide)
  have hcap : cap left.level ≤ 18 := cap_le hleftLevel (by omega) (by omega)
  have hyields : ∀ p : Pending, p.precedence ≤ cap left.level → p.yields .sequence = true := by
    intro p hp
    exact decide_eq_true (Nat.le_trans hp hcap)
  obtain ⟨c, hrun, hc⟩ := hleft stack before last pos (hguards.mono hleftLevel) (by omega) (by omega)
  obtain ⟨last', hstep⟩ := step_binary hc hyields hstops rfl (by decide) (by omega)
    (pos + left.width + 1) [',']
  have hnext : Guards (.pending (.operator .sequence (pos + left.width + 1)) :: stack)
      right.level := guards_pending (.operator .sequence _) True.intro hrightLevel stack
  obtain ⟨c', hrun', hc'⟩ := hright _ (before ++ left.records pos before.length) last'
    (pos + left.width + 1 + 2) hnext (by rw [List.length_append]; omega)
    (by rw [List.length_cons]; omega)
  refine ⟨c', ?_, ?_⟩
  · rw [tokens, List.append_assoc, run_append hrun, List.singleton_append, run_cons hstep, hrun']
  · have hbound : cap right.level ≤ 18 := cap_le (by omega) (by omega) (by omega)
    have hholds := (hc'.mono hbound).push_emit (Nat.le_refl 18) (fun a => rfl)
      (by simp only [List.length_append]; omega)
    change c'.Holds limits stack 18 _
    simpa only [records, List.append_assoc, List.length_append] using hholds

theorem compiles_ternary {condition yes no : Expr} (hfits : (ternary condition yes no).Fits)
    (hcondition : Compiles limits condition) (hyes : Compiles limits yes)
    (hno : Compiles limits no) : Compiles limits (ternary condition yes no) := by
  intro stack before last pos hguards hrecords hstack
  obtain ⟨hconditionLevel, hnoLevel, -, -, -⟩ := hfits
  simp only [records, single, List.length_append, List.length_singleton] at hrecords
  rw [depth] at hstack
  have hcap : cap condition.level < 16 :=
    Nat.lt_succ_of_le (cap_le hconditionLevel (by omega) (by omega))
  have hlower : condition.level ≤ (ternary condition yes no).level :=
    Nat.le_trans hconditionLevel (by change 15 ≤ 16; decide)
  obtain ⟨c₁, hrun₁, hc₁⟩ := hcondition stack before last pos (hguards.mono hlower) (by omega)
    (by omega)
  simp only [records]
  generalize condition.records pos before.length = first at *
  have hlength : (before ++ first).length = before.length + first.length := List.length_append
  have hquestion : step scanNumber limits c₁
      ⟨pos + condition.width + 1, ['?'], .ternary .question⟩ = _ :=
    step_question hc₁ hcap hguards.stops_question (by omega) (by omega)
  have hbranch : (before ++ first ++
      single (.branchIfFalse ⟨none, true⟩) (pos + condition.width + 1)).length =
      before.length + first.length + 1 := by
    simp only [single, List.length_append, List.length_singleton]
  obtain ⟨c₂, hrun₂, hc₂⟩ := hyes
    (.barrier (.question (pos + condition.width + 1) (before ++ first).length) :: stack)
    (before ++ first ++ single (.branchIfFalse ⟨none, true⟩) (pos + condition.width + 1))
    (some (before ++ first).length) (pos + condition.width + 1 + 2) (guards_barrier _ stack _)
    (by rw [hbranch]; omega) (by rw [List.length_cons]; omega)
  rw [hbranch] at hc₂
  generalize yes.records (pos + condition.width + 1 + 2) (before.length + first.length + 1) =
    second at *
  have hcolon : step scanNumber limits c₂
      ⟨pos + condition.width + 1 + 2 + yes.width + 1, [':'], .ternary .colon⟩ = _ :=
    step_colon hc₂ (by omega) (by omega)
  -- The jump stands behind the first part, where the branch of the question leads behind it.
  have hjump : (before ++ first ++ single (.branchIfFalse
      ⟨some (before.length + first.length + 1 + second.length + 1), true⟩)
        (pos + condition.width + 1) ++ second).length =
      before.length + first.length + 1 + second.length := by
    simp only [single, List.length_append, List.length_singleton]
  rw [hlength, ← List.append_assoc] at hcolon
  have hnext : Guards (.pending (.colon (pos + condition.width + 1 + 2 + yes.width + 1)
      (before.length + first.length + 1 + second.length)) :: stack) no.level :=
    guards_pending (.colon _ _) True.intro (by change no.level ≤ 17; omega) stack
  have hother : (before ++ first ++ single (.branchIfFalse
      ⟨some (before.length + first.length + 1 + second.length + 1), true⟩)
        (pos + condition.width + 1) ++ second ++
        single (.goto none) (pos + condition.width + 1 + 2 + yes.width + 1)).length =
      before.length + first.length + 1 + second.length + 1 := by
    rw [List.length_append, hjump]
    rfl
  obtain ⟨c₃, hrun₃, hc₃⟩ := hno _ _ _ (pos + condition.width + 1 + 2 + yes.width + 1 + 2) hnext
    (by rw [hother]; omega) (by rw [List.length_cons]; omega)
  refine ⟨c₃, ?_, ?_⟩
  · rw [tokens]
    simp only [List.append_assoc, List.cons_append, List.nil_append]
    rw [run_append hrun₁, run_cons hquestion, run_append hrun₂, run_cons hcolon, hrun₃]
  · have hbound : cap no.level ≤ 17 := cap_le (by omega) (by omega) (by omega)
    rw [hother] at hc₃
    have hholds := (hc₃.mono hbound).push (by change 16 ≤ 17; decide) fun last' =>
      ⟨none, apply_colon hjump⟩
    change c₃.Holds limits stack 17 _
    simpa only [List.append_assoc] using hholds

theorem compiles_assign {op : Spelled Assignment.spellings} {target : Name} {value : Expr}
    (hfits : (assign op target value).Fits) (hvalue : Compiles limits value) :
    Compiles limits (assign op target value) := by
  intro stack before last pos hguards hrecords hstack
  simp only [records, single, List.length_append, List.length_cons, List.length_nil] at hrecords
  rw [depth] at hstack
  have hname : step scanNumber limits ⟨stack, .ofRecords before last⟩
      ⟨pos, target.chars, .name⟩ = _ :=
    step_name target (by rw [length_naming] at hrecords ⊢; omega)
  have hassign : step scanNumber limits
      ⟨stack, .ofRecords (before ++ naming .lookupValue target pos) (some before.length)⟩
      ⟨pos + byteLength target.chars + 1, op.spelling, .assign op.meaning⟩ =
      .ok ⟨_, .ofRecords (before ++ naming .lookupPointer target pos) _⟩ :=
    step_assign rfl hguards.stops_assignment (by omega)
  have hnext : Guards (.pending (.assign op.meaning (pos + byteLength target.chars + 1)) :: stack)
      value.level := guards_pending (.assign _ _) True.intro hfits.1 stack
  obtain ⟨c, hrun, hc⟩ := hvalue _ (before ++ naming .lookupPointer target pos) (some before.length)
    (pos + byteLength target.chars + 1 + byteLength op.spelling + 1) hnext
    (by rw [List.length_append]; omega) (by rw [List.length_cons]; omega)
  refine ⟨c, ?_, ?_⟩
  · rw [tokens]
    simp only [List.cons_append, List.nil_append]
    rw [run_cons hname, run_cons hassign, hrun]
  · have hbound : cap value.level ≤ 17 := cap_le hfits.1 (by omega) (by omega)
    have hholds := (hc.mono hbound).push_emit (Nat.le_refl 17) (fun a => rfl)
      (by simp only [List.length_append]; omega)
    change c.Holds limits stack 17 _
    simpa only [records, List.append_assoc, List.length_append] using hholds

theorem compiles_stepBefore (step : Step) (word : Name) :
    Compiles limits (stepBefore step word) := by
  intro stack before last pos hguards hrecords hstack
  simp only [records, single, List.length_append, List.length_cons, List.length_nil] at hrecords
  rw [depth] at hstack
  have hstops : Stops (Pending.yieldsToUnary step.before) stack :=
    hguards.stops_unary (Nat.le_refl 1) (by cases step <;> rfl) (by cases step <;> rfl)
  have hname : Compiler.step scanNumber limits
      ⟨.pending (.operator step.before pos) :: stack, .ofRecords before last⟩
      ⟨pos + 3, word.chars, .name⟩ = _ :=
    step_name word (by rw [length_naming] at hrecords ⊢; omega)
  have happly : Pending.apply limits.maxRecords
      (.ofRecords (before ++ naming .lookupValue word (pos + 3)) (some before.length))
      (.operator step.before pos) = .ok (.ofRecords
        (before ++ naming .lookupPointer word (pos + 3) ++ single (.incDec step.before) pos) _) :=
    apply_stepBefore rfl step limits.maxRecords
      (by simp only [naming, List.length_append] at hrecords ⊢; omega)
  refine ⟨⟨.pending (.operator step.before pos) :: stack,
    .ofRecords (before ++ naming .lookupValue word (pos + 3)) (some before.length)⟩, ?_,
    [.operator step.before pos], some (before ++ naming .lookupPointer word (pos + 3)).length, rfl,
    ?_, ?_⟩
  · rw [tokens, run_cons (step_before (Or.inr rfl) hstops (by omega)), run_cons hname, run_nil]
  · intro p hp
    rw [List.mem_singleton.mp hp]
    cases step <;> exact Nat.le_refl 1
  · rw [records, ← List.append_assoc, List.foldlM_cons, happly]
    rfl

theorem compiles_stepAfter (step : Step) (word : Name) :
    Compiles limits (stepAfter step word) := by
  intro stack before last pos hguards hrecords hstack
  simp only [records, single, List.length_append, List.length_cons, List.length_nil] at hrecords
  rw [depth] at hstack
  have hname : Compiler.step scanNumber limits ⟨stack, .ofRecords before last⟩
      ⟨pos, word.chars, .name⟩ = _ :=
    step_name word (by rw [length_naming] at hrecords ⊢; omega)
  have hstep : Compiler.step scanNumber limits
      ⟨stack, .ofRecords (before ++ naming .lookupValue word pos) (some before.length)⟩
      ⟨pos + byteLength word.chars + 1, step.spelling, .stepAfter step.after⟩ =
      .ok ⟨stack, .ofRecords (before ++ naming .lookupPointer word pos ++
        single (.incDec step.after) (pos + byteLength word.chars + 1)) _⟩ :=
    step_after rfl (by rw [List.length_append]; simp only [naming] at hrecords ⊢; omega)
  refine ⟨_, ?_, holds_done (some (before ++ naming .lookupPointer word pos).length) _⟩
  rw [tokens, run_cons hname, run_cons hstep, run_nil, records, List.append_assoc]
  rfl

-- A name and the index behind it, on top of a stack that is left alone.
theorem run_index {index : Expr} (hindex : Compiles limits index) {stack : List Entry}
    {level : Nat} (hguards : Guards stack level) (word : Name) (before : List Record)
    (last : Option Nat) (pos : Nat)
    (hrecords : before.length + (naming .lookupValue word pos).length +
      (index.records (pos + byteLength word.chars + 1 + 2)
        (before.length + (naming .lookupValue word pos).length)).length + 1 ≤ limits.maxRecords)
    (hstack : stack.length + (index.depth + 1) ≤ limits.maxStackDepth) :
    run limits ⟨stack, .ofRecords before last⟩
      ([⟨pos, word.chars, .name⟩, ⟨pos + byteLength word.chars + 1, ['['], .opening .subscript⟩] ++
        index.tokens (pos + byteLength word.chars + 1 + 2) ++
        [⟨pos + byteLength word.chars + 1 + 2 + index.width + 1, [']'],
          .closing (.subscript .index)⟩]) =
      .ok ⟨stack, .ofRecords (before ++ naming .lookupValue word pos ++
          index.records (pos + byteLength word.chars + 1 + 2)
            (before.length + (naming .lookupValue word pos).length) ++
          single (.sliceValue .index) (pos + byteLength word.chars + 1 + 2 + index.width + 1))
        (some (before ++ naming .lookupValue word pos ++
          index.records (pos + byteLength word.chars + 1 + 2)
            (before.length + (naming .lookupValue word pos).length)).length)⟩ := by
  have hname : step scanNumber limits ⟨stack, .ofRecords before last⟩
      ⟨pos, word.chars, .name⟩ = _ := step_name word (by omega)
  obtain ⟨c, hrun, hc⟩ := hindex
    (.barrier (.bracket .subscript (pos + byteLength word.chars + 1)) :: stack)
    (before ++ naming .lookupValue word pos) (some before.length)
    (pos + byteLength word.chars + 1 + 2) (guards_barrier _ _ _)
    (by rw [List.length_append]; omega) (by rw [List.length_cons]; omega)
  rw [List.length_append] at hc
  have hclose : step scanNumber limits c
      ⟨pos + byteLength word.chars + 1 + 2 + index.width + 1, [']'],
        .closing (.subscript .index)⟩ = _ :=
    closeGroup_emit (Or.inr (Or.inr ⟨rfl, rfl⟩)) hc (by simp only [List.length_append]; omega)
  simp only [List.append_assoc, List.cons_append, List.nil_append]
  rw [run_cons hname, run_cons (step_opening hguards.stops_access (by omega)), run_append hrun,
    run_cons hclose, run_nil]
  simp only [List.append_assoc]

theorem compiles_element {word : Name} {index : Expr} (hindex : Compiles limits index) :
    Compiles limits (element word index) := by
  intro stack before last pos hguards hrecords hstack
  simp only [records, single, List.length_append, List.length_cons, List.length_nil] at hrecords
  rw [depth] at hstack
  refine ⟨_, run_index hindex hguards word before last pos (by omega) (by omega), ?_⟩
  simp only [records, ← List.append_assoc]
  exact holds_done _ _

theorem compiles_assignElement {op : Spelled Assignment.spellings} {target : Name}
    {index value : Expr} (hfits : (assignElement op target index value).Fits)
    (hindex : Compiles limits index) (hvalue : Compiles limits value) :
    Compiles limits (assignElement op target index value) := by
  intro stack before last pos hguards hrecords hstack
  simp only [records, single, List.length_append, List.length_cons, List.length_nil] at hrecords
  rw [depth] at hstack
  have hplace := run_index hindex hguards target before last pos (by omega) (by omega)
  have hroom : stack.length < limits.maxStackDepth := by omega
  simp only [records, tokens, single, List.length_append, List.length_cons, List.length_nil]
  generalize index.records (pos + byteLength target.chars + 1 + 2)
    (before.length + (naming .lookupValue target pos).length) = indices at *
  generalize hclosed : pos + byteLength target.chars + 1 + 2 + index.width + 1 = closed at *
  have hassign : step scanNumber limits
      ⟨stack, .ofRecords (before ++ naming .lookupValue target pos ++ indices ++
        single (.sliceValue .index) closed)
        (some (before ++ naming .lookupValue target pos ++ indices).length)⟩
      ⟨closed + 2, op.spelling, .assign op.meaning⟩ =
      .ok ⟨.pending (.assign op.meaning (closed + 2)) :: stack,
        .ofRecords (before ++ naming .lookupValue target pos ++ indices ++
          single (.slicePointer .index) closed)
        (some (before ++ naming .lookupValue target pos ++ indices).length)⟩ := by
    rw [single_eq_block, single_eq_block]
    exact step_assign rfl hguards.stops_assignment hroom
  have hnext : Guards (.pending (.assign op.meaning (closed + 2)) :: stack) value.level :=
    guards_pending (.assign _ _) True.intro hfits.1 stack
  have hbase : (before ++ naming .lookupValue target pos ++ indices ++
      single (.slicePointer .index) closed).length =
      before.length + ((naming .lookupValue target pos).length + indices.length + (0 + 1)) := by
    simp only [single, List.length_append, List.length_singleton]
    omega
  obtain ⟨c, hrun, hc⟩ := hvalue _ (before ++ naming .lookupValue target pos ++ indices ++
      single (.slicePointer .index) closed)
    (some (before ++ naming .lookupValue target pos ++ indices).length)
    (closed + 2 + byteLength op.spelling + 1) hnext (by rw [hbase]; omega)
    (by rw [List.length_cons]; omega)
  rw [hbase] at hc
  refine ⟨c, ?_, ?_⟩
  · have hwhole : run limits ⟨stack, .ofRecords before last⟩
        (_ ++ ⟨closed + 2, op.spelling, .assign op.meaning⟩ ::
          value.tokens (closed + 2 + byteLength op.spelling + 1)) = _ := run_append hplace
    rw [run_cons hassign, hrun] at hwhole
    rw [← hwhole]
    simp only [List.append_assoc, List.cons_append, List.nil_append]
  · have hbound : cap value.level ≤ 17 := cap_le hfits.1 (by omega) (by omega)
    have hholds := (hc.mono hbound).push_emit (Nat.le_refl 17) (fun a => rfl)
      (by rw [List.length_append, hbase]; omega)
    change c.Holds limits stack 17 _
    simpa only [single, List.append_assoc] using hholds

section Items

-- Between items everything down to the bracket is applied, and nothing is written.
theorem run_more {b : Barrier} {stack : List Entry} {more : List Expr}
    (hmore : ∀ item ∈ more, Compiles limits item)
    (hlevels : ∀ item ∈ more, item.level ≤ 17) {c : Compiler} {before : List Record}
    (hc : c.Holds limits (.barrier b :: stack) 18 before) (pos : Nat)
    (hrecords : before.length + (moreRecords more pos before.length).length ≤ limits.maxRecords)
    (hstack : stack.length + (itemsDepth more + 1) ≤ limits.maxStackDepth) :
    ∃ c', run limits c (moreTokens more pos) = .ok c' ∧
      c'.Holds limits (.barrier b :: stack) 18 (before ++ moreRecords more pos before.length) := by
  induction more generalizing c before pos with
  | nil =>
      refine ⟨c, rfl, ?_⟩
      rw [moreRecords, List.append_nil]
      exact hc
  | cons item more ih =>
      rw [moreRecords, List.length_append] at hrecords
      rw [itemsDepth] at hstack
      have hlevel : item.level ≤ 17 := hlevels item List.mem_cons_self
      obtain ⟨last, hcomma⟩ := step_collect hc (Nat.le_refl 18) (pos + 1) [',']
      obtain ⟨c₁, hrun₁, hc₁⟩ := hmore item List.mem_cons_self (.barrier b :: stack) before last
        (pos + 3) (guards_barrier b stack _) (by omega) (by rw [List.length_cons]; omega)
      have hbound : cap item.level ≤ 18 := cap_le (by omega) (by omega) (by omega)
      obtain ⟨c₂, hrun₂, hc₂⟩ := ih
        (fun other hother => hmore other (List.mem_cons_of_mem item hother))
        (fun other hother => hlevels other (List.mem_cons_of_mem item hother)) (hc₁.mono hbound)
        (pos + 3 + item.width) (by rw [List.length_append]; omega) (by omega)
      refine ⟨c₂, ?_, ?_⟩
      · rw [moreTokens, List.append_assoc, List.singleton_append, run_cons hcomma,
          run_append hrun₁, hrun₂]
      · simpa only [moreRecords, List.append_assoc, List.length_append] using hc₂

theorem run_items {items : List Expr} (hitems : ∀ item ∈ items, Compiles limits item)
    (hlevels : ∀ item ∈ items, item.level ≤ 17) (b : Barrier) (stack : List Entry)
    (before : List Record) (last : Option Nat) (pos : Nat)
    (hrecords : before.length + (itemsRecords items pos before.length).length ≤ limits.maxRecords)
    (hstack : stack.length + (itemsDepth items + 1) ≤ limits.maxStackDepth) :
    ∃ c, run limits ⟨.barrier b :: stack, .ofRecords before last⟩ (itemsTokens items pos) = .ok c ∧
      c.Holds limits (.barrier b :: stack) 18 (before ++ itemsRecords items pos before.length) := by
  cases items with
  | nil =>
      refine ⟨_, rfl, ?_⟩
      rw [itemsRecords, List.append_nil]
      exact holds_done _ _
  | cons item more =>
      rw [itemsRecords, List.length_append] at hrecords
      rw [itemsDepth] at hstack
      have hlevel : item.level ≤ 17 := hlevels item List.mem_cons_self
      obtain ⟨c₁, hrun₁, hc₁⟩ := hitems item List.mem_cons_self (.barrier b :: stack) before last
        (pos + 1) (guards_barrier b stack _) (by omega) (by rw [List.length_cons]; omega)
      have hbound : cap item.level ≤ 18 := cap_le (by omega) (by omega) (by omega)
      obtain ⟨c₂, hrun₂, hc₂⟩ := run_more
        (fun other hother => hitems other (List.mem_cons_of_mem item hother))
        (fun other hother => hlevels other (List.mem_cons_of_mem item hother)) (hc₁.mono hbound)
        (pos + 1 + item.width) (by rw [List.length_append]; omega) (by omega)
      refine ⟨c₂, ?_, ?_⟩
      · rw [itemsTokens, run_append hrun₁, hrun₂]
      · simpa only [itemsRecords, List.append_assoc, List.length_append] using hc₂

end Items

theorem compiles_list {items : List Expr} (hlevels : ∀ item ∈ items, item.level ≤ 17)
    (hitems : ∀ item ∈ items, Compiles limits item) : Compiles limits (list items) := by
  intro stack before last pos hguards hrecords hstack
  simp only [records, single, List.length_append, List.length_singleton] at hrecords
  rw [depth] at hstack
  obtain ⟨c, hrun, hc⟩ := run_items hitems hlevels (.bracket .list pos) stack before last (pos + 1)
    (by omega) (by omega)
  have hclose : step scanNumber limits c ⟨pos + 1 + byteLength (itemsText items) + 1, [']'],
      .closing (.list items.length)⟩ = _ :=
    closeGroup_emit (Or.inl ⟨_, rfl, rfl⟩) hc (by rw [List.length_append]; omega)
  refine ⟨_, ?_,
    holds_done (some (before ++ itemsRecords items (pos + 1) before.length).length) _⟩
  rw [tokens]
  simp only [List.cons_append, List.nil_append]
  rw [run_cons (step_opening hguards.stops_access (by omega)), run_append hrun, run_cons hclose,
    run_nil, records, List.append_assoc]

theorem compiles_call {function : Name} {arguments : List Expr}
    (hlevels : ∀ item ∈ arguments, item.level ≤ 17)
    (harguments : ∀ item ∈ arguments, Compiles limits item) :
    Compiles limits (call function arguments) := by
  intro stack before last pos hguards hrecords hstack
  simp only [records, single, List.length_append, List.length_cons, List.length_nil] at hrecords
  rw [depth] at hstack
  have hname : step scanNumber limits ⟨stack, .ofRecords before last⟩
      ⟨pos, function.chars, .name⟩ = _ := step_name function (by omega)
  obtain ⟨c, hrun, hc⟩ := run_items harguments hlevels
    (.bracket .call (pos + byteLength function.chars + 1)) stack
    (before ++ naming .lookupValue function pos) (some before.length)
    (pos + byteLength function.chars + 1 + 1) (by rw [List.length_append]; omega) (by omega)
  have hclose : step scanNumber limits c
      ⟨pos + byteLength function.chars + 1 + 1 + byteLength (itemsText arguments) + 1, [')'],
        .closing (.call arguments.length)⟩ = _ :=
    closeGroup_emit (Or.inr (Or.inl ⟨_, rfl, rfl⟩)) hc
      (by simp only [List.length_append]; omega)
  refine ⟨_, ?_, holds_done (some (before ++ naming .lookupValue function pos ++
    itemsRecords arguments (pos + byteLength function.chars + 1 + 1)
      (before ++ naming .lookupValue function pos).length).length) _⟩
  rw [tokens]
  simp only [List.append_assoc, List.cons_append, List.nil_append]
  rw [run_cons hname, run_cons (step_opening hguards.stops_access (by omega)), run_append hrun,
    run_cons hclose, run_nil, records]
  simp only [List.append_assoc, List.length_append]

-- Every tree that fits is compiled to its code.
theorem compiles {t : Expr} (hfits : t.Fits) : Compiles limits t := by
  induction t with
  | number digits => exact compiles_number digits
  | name word => exact compiles_name word
  | paren inner ih => exact compiles_paren (ih hfits)
  | unary op operand ih => exact compiles_unary hfits (ih hfits.2)
  | binary op left right hleft hright =>
      exact compiles_binary hfits (hleft hfits.2.1) (hright hfits.2.2)
  | ternary condition yes no hcondition hyes hno =>
      have ⟨_, _, hfirst, hsecond, hthird⟩ := hfits
      exact compiles_ternary hfits (hcondition hfirst) (hyes hsecond) (hno hthird)
  | assign op target value ih => exact compiles_assign hfits (ih hfits.2)
  | assignElement op target index value hindex hvalue =>
      exact compiles_assignElement hfits (hindex hfits.2.1) (hvalue hfits.2.2)
  | stepBefore step word => exact compiles_stepBefore step word
  | stepAfter step word => exact compiles_stepAfter step word
  | sequence left right hleft hright =>
      exact compiles_sequence hfits (hleft hfits.2.2.1) (hright hfits.2.2.2)
  | list items ih =>
      have hall := itemsFit_iff.mp hfits
      exact compiles_list (fun item hitem => (hall item hitem).1)
        fun item hitem => ih item hitem (hall item hitem).2
  | call function arguments ih =>
      have hall := itemsFit_iff.mp hfits
      exact compiles_call (fun item hitem => (hall item hitem).1)
        fun item hitem => ih item hitem (hall item hitem).2
  | element word index ih => exact compiles_element (ih hfits)

end Trees

end Expr

end FormulaCode
