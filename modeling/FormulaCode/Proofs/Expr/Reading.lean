import FormulaCode.Proofs.Expr.Scan
import FormulaCode.Proofs.Token.Frames

namespace FormulaCode

namespace Expr

-- What a part of a tree needs where it stands.
theorem Ready.part {setup : Setup} {level : Level} {t u : Expr} {cur next : Cursor}
    (h : t.Ready setup level cur) (hvalue : next.AwaitsValue)
    (hunary : next.state = .unaryOp → u.level ≤ 2)
    (hcomma : u.level = 18 → 0 < next.ternaries ∨ next.separators = .sequence)
    (hassigns : u.assigns = true → t.assigns = true) (hnesting : u.nesting ≤ t.nesting) :
    u.Ready setup level next where
  value := hvalue
  unary := hunary
  comma := hcomma
  assignment := fun hu => h.assignment (hassigns hu)
  room := fun limit hlimit => by
    have := h.room limit hlimit
    omega

theorem binary_level_le (op : Spelled Operator.binarySpellings) : op.meaning.precedence ≤ 15 := by
  have htable : ∀ entry ∈ Operator.binarySpellings, entry.2.precedence ≤ 15 := by decide
  exact htable _ op.mem

theorem eq_power_of_level_le (op : Spelled Operator.binarySpellings)
    (h : op.meaning.precedence ≤ 2) : op.meaning = .power := by
  have htable : ∀ entry ∈ Operator.binarySpellings, entry.2.precedence ≤ 2 → entry.2 = .power := by
    decide
  exact htable _ op.mem h

theorem binary_fits_levels {op : Spelled Operator.binarySpellings} {left right : Expr}
    (h : (binary op left right).Fits) :
    left.level ≤ 15 ∧ right.level ≤ 15 ∧ (op.meaning.precedence ≤ 2 → left.level ≤ 1) := by
  have hle := binary_level_le op
  obtain ⟨hlevels, -, -⟩ := h
  split at hlevels
  · rename_i hpower
    exact ⟨by omega, by omega, fun _ => hlevels.1⟩
  · rename_i hpower
    exact ⟨by omega, by omega, fun h => absurd (eq_power_of_level_le op h) hpower⟩

section Trees

variable {setup : Setup}

theorem reads_number (hscanner : setup.scanner = scanNumber) (digits : Digits) :
    Reads setup (number digits) := by
  intro level pos state ternaries separators rest hready hrest
  exact scan_number hready.value hscanner digits hrest

theorem reads_name (word : Name) : Reads setup (name word) := by
  intro level pos state ternaries separators rest hready hrest
  exact scan_name (Or.inl hready.value) word hrest

theorem reads_unary {op : Spelled Operator.unarySpellings} {operand : Expr}
    (hfits : (unary op operand).Fits) (hoperand : Reads setup operand) :
    Reads setup (unary op operand) := by
  intro level pos state ternaries separators rest hready hrest
  have hstate : state.successors = TokenKind.start.successors := by
    rcases hready.value.state with hstate | hstate
    · exact hstate
    · exact absurd (hready.unary hstate) (by simp [Expr.level])
  have hnext : operand.Ready setup level
      ⟨pos + byteLength op.spelling + 1, .unaryOp, ternaries, separators, .plain⟩ := by
    refine hready.part ⟨rfl, Or.inr rfl⟩ (fun _ => hfits.1) ?_ (fun h => h) (Nat.le_refl _)
    intro h
    have := hfits.1
    omega
  have hwidth : pos + (unary op operand).width =
      pos + byteLength op.spelling + 1 + operand.width := by
    have : (unary op operand).width = byteLength op.spelling + 1 + operand.width := by
      simp only [width, text, byteLength_append]
      rfl
    omega
  simp only [text, List.append_assoc, List.cons_append, List.nil_append]
  rw [scan_unary hstate op, hoperand _ _ _ _ _ _ hnext hrest, Scan.after_after, hwidth]
  rfl

theorem reads_binary {op : Spelled Operator.binarySpellings} {left right : Expr}
    (hfits : (binary op left right).Fits) (hleft : Reads setup left) (hright : Reads setup right) :
    Reads setup (binary op left right) := by
  intro level pos state ternaries separators rest hready hrest
  obtain ⟨hleftLevel, hrightLevel, hpower⟩ := binary_fits_levels hfits
  have hfirst : left.Ready setup level ⟨pos, state, ternaries, separators, .plain⟩ := by
    refine hready.part hready.value ?_ ?_ (by simp +contextual [assigns]) (Nat.le_max_left _ _)
    · intro h
      have := hpower (hready.unary h)
      omega
    · intro h
      omega
  have hsecond : right.Ready setup level
      ⟨pos + left.width + 1 + byteLength op.spelling + 1, .binaryOp, ternaries, separators,
        .plain⟩ := by
    refine hready.part ⟨rfl, Or.inl rfl⟩ ?_ ?_ (by simp +contextual [assigns])
      (Nat.le_max_right _ _)
    · intro h
      cases h
    · intro h
      omega
  have hwidth : pos + (binary op left right).width =
      pos + left.width + 1 + byteLength op.spelling + 1 + right.width := by
    have : (binary op left right).width =
        left.width + 1 + byteLength op.spelling + 1 + right.width := by
      simp only [width, text, byteLength_append]
      rfl
    omega
  simp only [text, List.append_assoc, List.cons_append, List.nil_append]
  rw [hleft _ _ _ _ _ _ hfirst (Boundary.space _), scan_binary (left.awaitsOperator_last _ _ _) op,
    hright _ _ _ _ _ _ hsecond hrest, Scan.after_after, Scan.after_after, hwidth]
  simp only [tokens, List.append_assoc]
  rfl

theorem reads_ternary {condition yes no : Expr} (hfits : (ternary condition yes no).Fits)
    (hcondition : Reads setup condition) (hyes : Reads setup yes) (hno : Reads setup no) :
    Reads setup (ternary condition yes no) := by
  intro level pos state ternaries separators rest hready hrest
  obtain ⟨hconditionLevel, hnoLevel, -, -, -⟩ := hfits
  have hnesting : (ternary condition yes no).nesting =
      max condition.nesting (max yes.nesting no.nesting) := rfl
  have hfirst : condition.Ready setup level ⟨pos, state, ternaries, separators, .plain⟩ := by
    refine hready.part hready.value ?_ ?_ (by simp +contextual [assigns]) (by omega)
    · intro h
      exact absurd (hready.unary h) (by simp [Expr.level])
    · intro h
      omega
  have hsecond : yes.Ready setup level
      ⟨pos + condition.width + 1 + 2, .ternaryOp, ternaries + 1, separators, .plain⟩ := by
    refine hready.part ⟨rfl, Or.inl rfl⟩ ?_ (fun _ => Or.inl (Nat.succ_pos ternaries))
      (by simp +contextual [assigns]) (by omega)
    intro h
    cases h
  have hthird : no.Ready setup level
      ⟨pos + condition.width + 1 + 2 + yes.width + 1 + 2, .ternaryOp, ternaries, separators,
        .plain⟩ := by
    refine hready.part ⟨rfl, Or.inl rfl⟩ ?_ ?_ (by simp +contextual [assigns]) (by omega)
    · intro h
      cases h
    · intro h
      omega
  have hwidth : pos + (ternary condition yes no).width =
      pos + condition.width + 1 + 2 + yes.width + 1 + 2 + no.width := by
    have : (ternary condition yes no).width =
        condition.width + 3 + yes.width + 3 + no.width := by
      simp only [width, text, byteLength_append]
      rfl
    omega
  simp only [text, List.append_assoc, List.cons_append, List.nil_append]
  rw [hcondition _ _ _ _ _ _ hfirst (Boundary.space _),
    scan_question (condition.awaitsOperator_last _ _ _),
    hyes _ _ _ _ _ _ hsecond (Boundary.space _), scan_colon (yes.awaitsOperator_last _ _ _) rfl,
    hno _ _ _ _ _ _ hthird hrest, Scan.after_after, Scan.after_after, Scan.after_after,
    Scan.after_after, hwidth]
  simp only [tokens, List.append_assoc]
  rfl

theorem reads_assign {op : Spelled Assignment.spellings} {target : Name} {value : Expr}
    (hfits : (assign op target value).Fits) (hvalue : Reads setup value) :
    Reads setup (assign op target value) := by
  intro level pos state ternaries separators rest hready hrest
  have hnext : value.Ready setup level
      ⟨pos + byteLength target.chars + 1 + byteLength op.spelling + 1, .assignOp, ternaries,
        separators, .plain⟩ := by
    refine hready.part ⟨rfl, Or.inl rfl⟩ ?_ ?_ (fun _ => rfl) (Nat.le_refl _)
    · intro h
      cases h
    · intro h
      have := hfits.1
      omega
  have hwidth : pos + (assign op target value).width =
      pos + byteLength target.chars + 1 + byteLength op.spelling + 1 + value.width := by
    have : (assign op target value).width =
        byteLength target.chars + 1 + byteLength op.spelling + 1 + value.width := by
      simp only [width, text, byteLength_append]
      rfl
    omega
  simp only [text, List.append_assoc, List.cons_append, List.nil_append]
  rw [scan_name (Or.inl hready.value) target (Boundary.space _),
    scan_assign (Or.inl rfl) (hready.assignment rfl) op, hvalue _ _ _ _ _ _ hnext hrest,
    Scan.after_after, Scan.after_after, hwidth]
  rfl

theorem reads_assignElement {op : Spelled Assignment.spellings} {target : Name} {index value : Expr}
    (hfits : (assignElement op target index value).Fits) (hindex : Reads setup index)
    (hvalue : Reads setup value) : Reads setup (assignElement op target index value) := by
  intro level pos state ternaries separators rest hready hrest
  have hnesting : (assignElement op target index value).nesting =
      max (index.nesting + 1) value.nesting := rfl
  have hroom : ∀ limit ∈ setup.maxDepth, level.depth + (index.nesting + 1) ≤ limit := by
    intro limit hlimit
    have := hready.room limit hlimit
    omega
  have hnext : value.Ready setup level
      ⟨pos + byteLength target.chars + 1 + 2 + index.width + 2 + 1 + byteLength op.spelling + 1,
        .assignOp, ternaries, separators, .plain⟩ := by
    refine hready.part ⟨rfl, Or.inl rfl⟩ ?_ ?_ (fun _ => rfl) (by omega)
    · intro h
      cases h
    · intro h
      have := hfits.1
      omega
  have hwidth : pos + (assignElement op target index value).width =
      pos + byteLength target.chars + 1 + 2 + index.width + 2 + 1 + byteLength op.spelling + 1 +
        value.width := by
    have : (assignElement op target index value).width =
        byteLength target.chars + 3 + index.width + 3 + byteLength op.spelling + 1 +
          value.width := by
      simp only [width, text, byteLength_append]
      rfl
    omega
  simp only [text, List.append_assoc, List.cons_append, List.nil_append]
  rw [scan_name (Or.inl hready.value) target (Boundary.space _),
    scan_index hindex (fun _ => hready.assignment rfl) hroom,
    scan_assign (Or.inr rfl) (hready.assignment rfl) op, hvalue _ _ _ _ _ _ hnext hrest,
    Scan.after_after, Scan.after_after, Scan.after_after, hwidth]
  simp only [tokens, List.append_assoc]
  rfl

theorem reads_stepBefore (step : Step) (word : Name) : Reads setup (stepBefore step word) := by
  intro level pos state ternaries separators rest hready hrest
  have hwidth : pos + (stepBefore step word).width = pos + 3 + byteLength word.chars := by
    have : (stepBefore step word).width = 3 + byteLength word.chars := by
      simp only [width, text, byteLength_append]
      cases step <;> rfl
    omega
  simp only [text, List.append_assoc, List.cons_append, List.nil_append]
  rw [scan_stepBefore hready.value step, scan_name (Or.inr rfl) word hrest, Scan.after_after, hwidth]
  rfl

theorem reads_stepAfter (step : Step) (word : Name) : Reads setup (stepAfter step word) := by
  intro level pos state ternaries separators rest hready hrest
  have hwidth : pos + (stepAfter step word).width = pos + byteLength word.chars + 3 := by
    have : (stepAfter step word).width = byteLength word.chars + 3 := by
      simp only [width, text, byteLength_append]
      cases step <;> rfl
    omega
  simp only [text, List.append_assoc, List.cons_append, List.nil_append]
  rw [scan_name (Or.inl hready.value) word (Boundary.space _), scan_stepAfter step,
    Scan.after_after, hwidth]
  rfl

theorem reads_sequence {left right : Expr} (hleft : Reads setup left) (hright : Reads setup right) :
    Reads setup (sequence left right) := by
  intro level pos state ternaries separators rest hready hrest
  have hcomma : 0 < ternaries ∨ separators = .sequence := hready.comma rfl
  have hfirst : left.Ready setup level ⟨pos, state, ternaries, separators, .plain⟩ := by
    refine hready.part hready.value ?_ (fun _ => hcomma) (by simp +contextual [assigns])
      (Nat.le_max_left _ _)
    intro h
    exact absurd (hready.unary h) (by simp [Expr.level])
  have hsecond : right.Ready setup level
      ⟨pos + left.width + 1 + 2, .binaryOp, ternaries, separators, .plain⟩ := by
    refine hready.part ⟨rfl, Or.inl rfl⟩ ?_ (fun _ => hcomma) (by simp +contextual [assigns])
      (Nat.le_max_right _ _)
    intro h
    cases h
  have hwidth : pos + (sequence left right).width = pos + left.width + 1 + 2 + right.width := by
    have : (sequence left right).width = left.width + 3 + right.width := by
      simp only [width, text, byteLength_append]
      rfl
    omega
  simp only [text, List.append_assoc, List.cons_append, List.nil_append]
  rw [hleft _ _ _ _ _ _ hfirst (Boundary.space _),
    scan_sequence (left.awaitsOperator_last _ _ _) hcomma, hright _ _ _ _ _ _ hsecond hrest,
    Scan.after_after, Scan.after_after, hwidth]
  simp only [tokens, List.append_assoc]
  rfl

theorem reads_paren {inner : Expr} (hinner : Reads setup inner) : Reads setup (paren inner) := by
  intro level pos state ternaries separators rest hready hrest
  have hwidth : pos + (paren inner).width = pos + 2 + inner.width + 2 := by
    have : (paren inner).width = 2 + inner.width + 2 := by
      simp only [width, text, byteLength_append]
      rfl
    omega
  simp only [text, List.append_assoc, List.cons_append, List.nil_append]
  rw [scan_paren hinner hready.value hready.assignment hready.room, hwidth]
  rfl

theorem reads_element {word : Name} {index : Expr} (hindex : Reads setup index) :
    Reads setup (element word index) := by
  intro level pos state ternaries separators rest hready hrest
  have hwidth : pos + (element word index).width =
      pos + byteLength word.chars + 1 + 2 + index.width + 2 := by
    have : (element word index).width = byteLength word.chars + 3 + index.width + 2 := by
      simp only [width, text, byteLength_append]
      rfl
    omega
  simp only [text, List.append_assoc, List.cons_append, List.nil_append]
  rw [scan_name (Or.inl hready.value) word (Boundary.space _),
    scan_index hindex hready.assignment hready.room, Scan.after_after, hwidth]
  rfl

theorem reads_list (hscanner : setup.scanner = scanNumber) {items : List Expr}
    (hlevels : ∀ item ∈ items, item.level ≤ 17) (hitems : ∀ item ∈ items, Reads setup item) :
    Reads setup (list items) := by
  intro level pos state ternaries separators rest hready hrest
  have hwidth : pos + (list items).width = pos + 1 + byteLength (itemsText items) + 2 := by
    have : (list items).width = 1 + byteLength (itemsText items) + 2 := by
      simp only [width, text, byteLength_append]
      rfl
    omega
  simp only [text, List.append_assoc, List.cons_append, List.nil_append]
  rw [scan_list hitems hlevels hready.assignment hready.room hscanner hready.value, hwidth]
  rfl

theorem reads_call {function : Name} {arguments : List Expr}
    (hlevels : ∀ item ∈ arguments, item.level ≤ 17)
    (harguments : ∀ item ∈ arguments, Reads setup item) : Reads setup (call function arguments) := by
  intro level pos state ternaries separators rest hready hrest
  have hwidth : pos + (call function arguments).width =
      pos + byteLength function.chars + 1 + 1 + byteLength (itemsText arguments) + 2 := by
    have : (call function arguments).width =
        byteLength function.chars + 2 + byteLength (itemsText arguments) + 2 := by
      simp only [width, text, byteLength_append]
      rfl
    omega
  simp only [text, List.append_assoc, List.cons_append, List.nil_append]
  rw [scan_name (Or.inl hready.value) function (Boundary.space _),
    scan_call harguments hlevels hready.assignment hready.room, Scan.after_after, hwidth]
  rfl

-- Every tree that fits is read as its tokens.
theorem reads (hscanner : setup.scanner = scanNumber) {t : Expr} (hfits : t.Fits) :
    Reads setup t := by
  induction t with
  | number digits => exact reads_number hscanner digits
  | name word => exact reads_name word
  | paren inner ih => exact reads_paren (ih hfits)
  | unary op operand ih => exact reads_unary hfits (ih hfits.2)
  | binary op left right hleft hright =>
      exact reads_binary hfits (hleft hfits.2.1) (hright hfits.2.2)
  | ternary condition yes no hcondition hyes hno =>
      have ⟨_, _, hfirst, hsecond, hthird⟩ := hfits
      exact reads_ternary hfits (hcondition hfirst) (hyes hsecond) (hno hthird)
  | assign op target value ih => exact reads_assign hfits (ih hfits.2)
  | assignElement op target index value hindex hvalue =>
      exact reads_assignElement hfits (hindex hfits.2.1) (hvalue hfits.2.2)
  | stepBefore step word => exact reads_stepBefore step word
  | stepAfter step word => exact reads_stepAfter step word
  | sequence left right hleft hright =>
      exact reads_sequence (hleft hfits.2.2.1) (hright hfits.2.2.2)
  | list items ih =>
      have hall := itemsFit_iff.mp hfits
      exact reads_list hscanner (fun item hitem => (hall item hitem).1)
        fun item hitem => ih item hitem (hall item hitem).2
  | call function arguments ih =>
      have hall := itemsFit_iff.mp hfits
      exact reads_call (fun item hitem => (hall item hitem).1)
        fun item hitem => ih item hitem (hall item hitem).2
  | element word index ih => exact reads_element (ih hfits)

end Trees

-- The tokens of a whole formula, with the one that ends it.
def formulaTokens (t : Expr) : List Token :=
  t.tokens 0 ++ [⟨t.width, [], .finish 0⟩]

theorem scanText_text {setup : Setup} (hscanner : setup.scanner = scanNumber)
    (hdict : setup.permissions.dict = false) {t : Expr} (hfits : t.Fits)
    (hassignment : t.assigns = true → setup.permissions.assignment = true)
    (hcomma : t.level = 18 → setup.permissions.commaOperator = true)
    (hroom : ∀ limit ∈ setup.maxDepth, t.nesting ≤ limit) :
    scanText setup t.text = ⟨t.formulaTokens, .ok ⟨0, t.width, 0⟩⟩ := by
  have hready : t.Ready setup ⟨true, false, 0⟩
      ⟨0, .start, 0, setup.permissions.separators, .plain⟩ := by
    refine ⟨⟨rfl, Or.inl rfl⟩, ?_, ?_, hassignment, ?_⟩
    · intro h
      cases h
    · intro h
      right
      simp [Permissions.separators, hdict, hcomma h]
    · simpa using hroom
  have hitems : setup.permissions.separators.items? = some 0 := by
    rw [Permissions.separators, hdict]
    cases setup.permissions.commaOperator <;> rfl
  have hscan := reads hscanner hfits ⟨true, false, 0⟩ 0 .start 0 setup.permissions.separators []
    hready Boundary.nil
  rw [List.append_nil, Nat.zero_add] at hscan
  have hend : endLevel ⟨true, false, 0⟩ ⟨t.width, t.last, 0, setup.permissions.separators, .plain⟩
      0 = ⟨[⟨t.width, [], .finish 0⟩], .ok ⟨0, t.width, 0⟩⟩ := by
    rw [endLevel]
    simp only [hitems]
    rfl
  rw [scanText_eq, Cursor.start, hscan, scanLevel_nil (t.awaitsOperator_last _ _ _).finish_mem, hend]
  rfl

theorem tokenize_text {setup : Setup} (hscanner : setup.scanner = scanNumber)
    (hdict : setup.permissions.dict = false) {t : Expr} (hfits : t.Fits)
    (hassignment : t.assigns = true → setup.permissions.assignment = true)
    (hcomma : t.level = 18 → setup.permissions.commaOperator = true)
    (hroom : ∀ limit ∈ setup.maxDepth, t.nesting ≤ limit) {maxTokens : Option Nat}
    (htokens : ∀ limit ∈ maxTokens, t.formulaTokens.length ≤ limit) :
    tokenize setup maxTokens t.text = .ok ⟨t.formulaTokens, 0, t.width⟩ := by
  have hlimit : Scan.limit ⟨t.formulaTokens, .ok (⟨0, t.width, 0⟩ : LevelEnd)⟩ maxTokens =
      .ok ⟨0, t.width, 0⟩ := by
    rw [Scan.limit]
    cases hmax : maxTokens with
    | none => rfl
    | some limit =>
        have hle := htokens limit hmax
        simp [List.getElem?_eq_none hle]
  rw [tokenize_eq, scanText_text hscanner hdict hfits hassignment hcomma hroom]
  simp only [hlimit]
  rfl

end Expr

end FormulaCode
