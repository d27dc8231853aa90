import FormulaCode.Proofs.Token.Equations
import FormulaCode.Proofs.Expr.Code
import FormulaCode.Proofs.Expr.Text

namespace FormulaCode

namespace Expr

-- The state in which a tree leaves the tokenizer.
def last : Expr → TokenKind
  | number _ => .number
  | name _ | stepBefore _ _ => .name
  | paren _ => .subExpr
  | unary _ operand => operand.last
  | binary _ _ right => right.last
  | ternary _ _ no => no.last
  | assign _ _ value | assignElement _ _ _ value => value.last
  | stepAfter _ _ => .postfixOp
  | sequence _ right => right.last
  | list _ => .listLiteral
  | call _ _ => .callArgs
  | element _ _ => .subscript

-- A tree may be read where the tokenizer stands: an operand of a unary operator does not begin
-- with one, a comma is an operator here, and there is room for the brackets.
structure Ready (setup : Setup) (level : Level) (t : Expr) (cur : Cursor) : Prop where
  value : cur.AwaitsValue
  unary : cur.state = .unaryOp → t.level ≤ 2
  comma : t.level = 18 → 0 < cur.ternaries ∨ cur.separators = .sequence
  assignment : t.assigns = true → setup.permissions.assignment = true
  room : ∀ limit ∈ setup.maxDepth, level.depth + t.nesting ≤ limit

-- The tokenizer reads a tree as its tokens, whatever follows.
def Reads (setup : Setup) (t : Expr) : Prop :=
  ∀ level pos state ternaries separators rest,
    t.Ready setup level ⟨pos, state, ternaries, separators, .plain⟩ → Boundary rest →
    scanLevel setup level ⟨pos, state, ternaries, separators, .plain⟩ (t.text ++ rest) =
      (scanLevel setup level ⟨pos + t.width, t.last, ternaries, separators, .plain⟩ rest).after
        (t.tokens pos)

theorem last_mem (t : Expr) : t.last ∈ [TokenKind.number, .name, .subExpr, .postfixOp,
    .listLiteral, .callArgs, .subscript] := by
  induction t with
  | unary op operand ih => exact ih
  | binary op left right hleft hright => exact hright
  | ternary condition yes no hcondition hyes hno => exact hno
  | assign op target value ih => exact ih
  | assignElement op target index value hindex hvalue => exact hvalue
  | sequence left right hleft hright => exact hright
  | number | name | paren | stepBefore | stepAfter | list | call | element => simp [last]

theorem awaitsOperator_last (t : Expr) (pos ternaries : Nat) (separators : Separators) :
    Cursor.AwaitsOperator ⟨pos, t.last, ternaries, separators, .plain⟩ :=
  ⟨rfl, t.last_mem⟩

section Steps

variable {setup : Setup} {level : Level} {pos ternaries : Nat} {state : TokenKind}
  {separators : Separators} {rest : List Char}

theorem scan_space (text : List Char) :
    scanLevel setup level ⟨pos, state, ternaries, separators, .plain⟩ (' ' :: text) =
      scanLevel setup level ⟨pos + 1, state, ternaries, separators, .plain⟩ text :=
  scanLevel_space text

theorem scan_number (hvalue : Cursor.AwaitsValue ⟨pos, state, ternaries, separators, .plain⟩)
    (hscanner : setup.scanner = scanNumber) (digits : Digits) (hrest : Boundary rest) :
    scanLevel setup level ⟨pos, state, ternaries, separators, .plain⟩ (digits.chars ++ rest) =
      (scanLevel setup level
        ⟨pos + byteLength digits.chars, .number, ternaries, separators, .plain⟩ rest).after
        [⟨pos, digits.chars, .number⟩] := by
  refine scanLevel_lexeme ?_ (nextMove_number hvalue hscanner digits hrest)
  obtain ⟨d, more, hchars, hd⟩ := digits.exists_cons
  rw [hchars]
  simp [(Visible.of_isDigit hd).isSkipped_eq]

theorem Name.head_visible (word : Name) :
    word.chars.head?.any (fun c => !isSkipped c) = true := by
  obtain ⟨d, more, hchars, hd⟩ := word.exists_cons
  rw [hchars]
  simp [(Visible.of_isAlpha hd).isSkipped_eq]

theorem scan_name (hvalue : Cursor.AwaitsValue ⟨pos, state, ternaries, separators, .plain⟩ ∨
      state = .prefixOp) (word : Name) (hrest : Boundary rest) :
    scanLevel setup level ⟨pos, state, ternaries, separators, .plain⟩ (word.chars ++ rest) =
      (scanLevel setup level
        ⟨pos + byteLength word.chars, .name, ternaries, separators, .plain⟩ rest).after
        [⟨pos, word.chars, .name⟩] := by
  have hmove : nextMove setup level ⟨pos, state, ternaries, separators, .plain⟩
      (word.chars ++ rest) = .ok (.token .name (word.chars.length - 1)
        ⟨pos, state, ternaries, separators, .plain⟩) := by
    rcases hvalue with hvalue | hstate
    · exact nextMove_name hvalue word hrest
    · exact nextMove_steppedName rfl hstate word hrest
  exact scanLevel_lexeme (Name.head_visible word) hmove

-- A token between two spaces.
theorem scan_infix {lexeme : List Char}
    (hhead : lexeme.head?.any (fun c => !isSkipped c) = true) {form : Form} {next : Cursor}
    (hmove : nextMove setup level ⟨pos + 1, state, ternaries, separators, .plain⟩
      (lexeme ++ ' ' :: rest) = .ok (.token form (lexeme.length - 1) next)) :
    scanLevel setup level ⟨pos, state, ternaries, separators, .plain⟩
        (' ' :: (lexeme ++ ' ' :: rest)) =
      (scanLevel setup level
        { next with pos := pos + 1 + byteLength lexeme + 1, state := form.kind } rest).after
        [⟨pos + 1, lexeme, form⟩] := by
  rw [scan_space, scanLevel_lexeme hhead hmove, scanLevel_space]

theorem Spelled.head_visible {table : List (List Char × α)} (op : Spelled table)
    (htable : ∀ entry ∈ table, entry.1.head?.any (fun c => !isSkipped c) = true) :
    op.spelling.head?.any (fun c => !isSkipped c) = true :=
  htable _ op.mem

theorem scan_unary (hstate : state.successors = TokenKind.start.successors)
    (op : Spelled Operator.unarySpellings) :
    scanLevel setup level ⟨pos, state, ternaries, separators, .plain⟩
        (op.spelling ++ ' ' :: rest) =
      (scanLevel setup level
        ⟨pos + byteLength op.spelling + 1, .unaryOp, ternaries, separators, .plain⟩ rest).after
        [⟨pos, op.spelling, .unary op.meaning⟩] := by
  have hhead := Spelled.head_visible op (by decide)
  rw [scanLevel_lexeme hhead (nextMove_unary rfl hstate op), scanLevel_space]
  rfl

theorem scan_stepBefore (hvalue : Cursor.AwaitsValue ⟨pos, state, ternaries, separators, .plain⟩)
    (step : Step) :
    scanLevel setup level ⟨pos, state, ternaries, separators, .plain⟩
        (step.spelling ++ ' ' :: rest) =
      (scanLevel setup level ⟨pos + 3, .prefixOp, ternaries, separators, .plain⟩ rest).after
        [⟨pos, step.spelling, .stepBefore step.before⟩] := by
  have hmove : nextMove setup level ⟨pos, state, ternaries, separators, .plain⟩
      (step.spelling ++ ' ' :: rest) = _ := nextMove_stepBefore hvalue step
  cases step with
  | increment | decrement =>
      rw [scanLevel_lexeme (by decide) hmove, scanLevel_space]
      rfl

section Operators

variable (h : Cursor.AwaitsOperator ⟨pos + 1, state, ternaries, separators, .plain⟩)

include h

theorem scan_binary (op : Spelled Operator.binarySpellings) :
    scanLevel setup level ⟨pos, state, ternaries, separators, .plain⟩
        (' ' :: (op.spelling ++ ' ' :: rest)) =
      (scanLevel setup level
        ⟨pos + 1 + byteLength op.spelling + 1, .binaryOp, ternaries, separators, .plain⟩
        rest).after [⟨pos + 1, op.spelling, .binary op.meaning⟩] := by
  exact scan_infix (Spelled.head_visible op (by decide)) (nextMove_binaryOp h op)

theorem scan_question :
    scanLevel setup level ⟨pos, state, ternaries, separators, .plain⟩
        (' ' :: '?' :: ' ' :: rest) =
      (scanLevel setup level
        ⟨pos + 1 + 2, .ternaryOp, ternaries + 1, separators, .plain⟩ rest).after
        [⟨pos + 1, ['?'], .ternary .question⟩] := by
  have hmove : nextMove setup level ⟨pos + 1, state, ternaries, separators, .plain⟩
      (['?'] ++ ' ' :: rest) = _ := nextMove_question h
  exact scan_infix (by decide) hmove

theorem scan_colon {left : Nat} (hternaries : ternaries = left + 1) :
    scanLevel setup level ⟨pos, state, ternaries, separators, .plain⟩
        (' ' :: ':' :: ' ' :: rest) =
      (scanLevel setup level ⟨pos + 1 + 2, .ternaryOp, left, separators, .plain⟩ rest).after
        [⟨pos + 1, [':'], .ternary .colon⟩] := by
  have hmove : nextMove setup level ⟨pos + 1, state, ternaries, separators, .plain⟩
      ([':'] ++ ' ' :: rest) = _ := nextMove_colon h hternaries
  exact scan_infix (by decide) hmove

theorem scan_sequence (hcomma : 0 < ternaries ∨ separators = .sequence) :
    scanLevel setup level ⟨pos, state, ternaries, separators, .plain⟩
        (' ' :: ',' :: ' ' :: rest) =
      (scanLevel setup level ⟨pos + 1 + 2, .binaryOp, ternaries, separators, .plain⟩ rest).after
        [⟨pos + 1, [','], .binary .sequence⟩] := by
  have hmove : nextMove setup level ⟨pos + 1, state, ternaries, separators, .plain⟩
      ([','] ++ ' ' :: rest) = _ := nextMove_sequence h hcomma
  exact scan_infix (by decide) hmove

theorem scan_collect (hternaries : ternaries = 0) {count : Nat}
    (hseparators : separators = .items count) :
    scanLevel setup level ⟨pos, state, ternaries, separators, .plain⟩
        (' ' :: ',' :: ' ' :: rest) =
      (scanLevel setup level ⟨pos + 1 + 2, .binaryOp, ternaries, .items (count + 1), .plain⟩
        rest).after [⟨pos + 1, [','], .binary .collect⟩] := by
  have hmove : nextMove setup level ⟨pos + 1, state, ternaries, separators, .plain⟩
      ([','] ++ ' ' :: rest) = _ := nextMove_collect h hternaries hseparators
  exact scan_infix (by decide) hmove

-- The space before a closing bracket, and the end of its level.
theorem scan_close (htop : level.top = false) {items : Nat}
    (hitems : separators.items? = some items) :
    scanLevel setup level ⟨pos, state, ternaries, separators, .plain⟩ [' '] =
      pure ⟨items, pos + 1, 0⟩ := by
  rw [scan_space, scanLevel_nil h.finish_mem, endLevel]
  simp only [hitems, htop]
  rfl

end Operators

theorem scan_assign (hstate : state = .name ∨ state = .subscript)
    (hassignment : setup.permissions.assignment = true) (op : Spelled Assignment.spellings) :
    scanLevel setup level ⟨pos, state, ternaries, separators, .plain⟩
        (' ' :: (op.spelling ++ ' ' :: rest)) =
      (scanLevel setup level
        ⟨pos + 1 + byteLength op.spelling + 1, .assignOp, ternaries, separators, .plain⟩
        rest).after [⟨pos + 1, op.spelling, .assign op.meaning⟩] := by
  exact scan_infix (Spelled.head_visible op (by decide)) (nextMove_assign rfl hstate hassignment op)

theorem scan_stepAfter (step : Step) :
    scanLevel setup level ⟨pos, .name, ternaries, separators, .plain⟩
        (' ' :: (step.spelling ++ rest)) =
      (scanLevel setup level ⟨pos + 3, .postfixOp, ternaries, separators, .plain⟩ rest).after
        [⟨pos + 1, step.spelling, .stepAfter step.after⟩] := by
  have hmove : nextMove setup level ⟨pos + 1, .name, ternaries, separators, .plain⟩
      (step.spelling ++ rest) = _ := nextMove_stepAfter rfl rfl step
  cases step with
  | increment | decrement =>
      rw [scan_space, scanLevel_lexeme (by decide) hmove]
      rfl

theorem scan_group (group : Group) (opener closer : Char) (hopener : group.opener = opener)
    (hcloser : group.closer = closer) (hbracket : IsBracket opener closer) {inside : List Char}
    (hmove : nextMove setup level ⟨pos, state, ternaries, separators, .plain⟩
      (opener :: (inside ++ closer :: rest)) = .ok (.group group))
    (hpasses : Passes opener closer inside) {tokens : List Token} {closing : Closing}
    (hinside : scanInside inside
      (fun separators stopAtColon start inner _ =>
        scanNested setup level separators stopAtColon start inner)
      group .plain (pos + 1) = (pure closing : Scan Closing).after tokens) :
    scanLevel setup level ⟨pos, state, ternaries, separators, .plain⟩
        (opener :: (inside ++ closer :: rest)) =
      (scanLevel setup level
        ⟨pos + 1 + byteLength inside + 1, group.kind, ternaries, separators, .plain⟩ rest).after
        ([⟨pos, [opener], .opening group⟩] ++ tokens ++
          [⟨pos + 1 + byteLength inside, [closer], .closing closing⟩]) := by
  have hchars : isQuote opener = false ∧ isQuote closer = false ∧ closer ≠ opener ∧
      isSkipped opener = false ∧ byteLength (opener :: inside) = 1 + byteLength inside := by
    rcases hbracket with ⟨rfl, rfl⟩ | ⟨rfl, rfl⟩ <;>
      exact ⟨by decide, by decide, by decide, by decide, rfl⟩
  subst hopener hcloser
  obtain ⟨hquote, hquote', hne, hskip, hlength⟩ := hchars
  have hscan := scanLevel_group hskip hmove (matching?_eq hquote hquote' hne hpasses) hinside
  rw [hscan, hlength, ← Nat.add_assoc]
  rfl

theorem scanNested_eq (hroom : ∀ limit ∈ setup.maxDepth, level.depth < limit) (stopAtColon : Bool)
    (inner : List Char) :
    scanNested setup level separators stopAtColon pos inner =
      scanLevel setup ⟨false, stopAtColon, level.depth + 1⟩ ⟨pos, .start, 0, separators, .plain⟩
        inner := by
  have henter : enter setup level pos = pure () := by
    rw [enter]
    cases hlimit : setup.maxDepth with
    | none => rfl
    | some limit =>
        have hlt : ¬limit ≤ level.depth := Nat.not_le.mpr (hroom limit hlimit)
        simp only [if_neg hlt]
  rw [scanNested, henter]
  rfl

end Steps

section Groups

variable {setup : Setup} {level : Level} {t : Expr} {pos : Nat}

-- The inside of a bracket that holds one tree.
theorem Reads.closes (h : Reads setup t) {state : TokenKind} {ternaries : Nat}
    {separators : Separators} (htop : level.top = false)
    (hready : t.Ready setup level ⟨pos, state, ternaries, separators, .plain⟩) {items : Nat}
    (hitems : separators.items? = some items) :
    scanLevel setup level ⟨pos, state, ternaries, separators, .plain⟩ (t.text ++ [' ']) =
      (pure ⟨items, pos + t.width + 1, 0⟩ : Scan LevelEnd).after (t.tokens pos) := by
  rw [h level pos state ternaries separators [' '] hready (Boundary.space [])]
  rw [scan_close (t.awaitsOperator_last _ _ _) htop hitems]

-- Inside brackets a tree is ready as soon as there is room for it.
theorem ready_nested (separators : Separators) (hcomma : t.level = 18 → separators = .sequence)
    (hassignment : t.assigns = true → setup.permissions.assignment = true)
    (hroom : ∀ limit ∈ setup.maxDepth, level.depth + (t.nesting + 1) ≤ limit)
    (stopAtColon : Bool) :
    t.Ready setup ⟨false, stopAtColon, level.depth + 1⟩ ⟨pos, .start, 0, separators, .plain⟩ where
  value := ⟨rfl, Or.inl rfl⟩
  unary := by
    intro hstate
    cases hstate
  comma := fun hlevel => Or.inr (hcomma hlevel)
  assignment := hassignment
  room := by
    intro limit hlimit
    have hle := hroom limit hlimit
    simp only
    omega

theorem scanInside_paren (h : Reads setup t)
    (hassignment : t.assigns = true → setup.permissions.assignment = true)
    (hroom : ∀ limit ∈ setup.maxDepth, level.depth + (t.nesting + 1) ≤ limit) :
    scanInside (' ' :: (t.text ++ [' ']))
      (fun separators stopAtColon start inner _ =>
        scanNested setup level separators stopAtColon start inner)
      .subExpr .plain pos = (pure .subExpr : Scan Closing).after (t.tokens (pos + 1)) := by
  have hdepth : ∀ limit ∈ setup.maxDepth, level.depth < limit := by
    intro limit hlimit
    have hle := hroom limit hlimit
    omega
  rw [scanInside, scanNested_eq hdepth, scan_space]
  rw [h.closes rfl (ready_nested .sequence (fun _ => rfl) hassignment hroom false) rfl]
  rw [Scan.after_bind, Scan.pure_bind]

theorem scanInside_subscript (h : Reads setup t)
    (hassignment : t.assigns = true → setup.permissions.assignment = true)
    (hroom : ∀ limit ∈ setup.maxDepth, level.depth + (t.nesting + 1) ≤ limit) :
    scanInside (' ' :: (t.text ++ [' ']))
      (fun separators stopAtColon start inner _ =>
        scanNested setup level separators stopAtColon start inner)
      .subscript .plain pos =
      (pure (.subscript .index) : Scan Closing).after (t.tokens (pos + 1)) := by
  have hdepth : ∀ limit ∈ setup.maxDepth, level.depth < limit := by
    intro limit hlimit
    have hle := hroom limit hlimit
    omega
  obtain ⟨c, more, htext, hc, hcolon⟩ := t.exists_text_eq
  have hblank : ¬isBlank c = true := by simp [hc.isBlank_eq]
  have htrim : trimStart (' ' :: (t.text ++ [' '])) = c :: (more ++ [' ']) := by
    rw [htext, trimStart, List.dropWhile_cons_of_pos (by decide), List.cons_append,
      List.dropWhile_cons_of_neg hblank]
  have hfirst : byteLength ((' ' :: (t.text ++ [' '])).takeWhile isBlank) = 1 := by
    rw [htext, List.takeWhile_cons_of_pos (by decide), List.cons_append,
      List.takeWhile_cons_of_neg hblank]
    rfl
  have hready : t.Ready setup ⟨false, true, level.depth + 1⟩
      ⟨pos + 1, .start, 0, .sequence, .plain⟩ :=
    ready_nested .sequence (fun _ => rfl) hassignment hroom true
  have hnested := h.closes rfl hready rfl
  rw [scanInside, scanSubscript]
  simp only [hfirst]
  split
  · rename_i hnil
    rw [htrim] at hnil
    cases hnil
  · rename_i hcons
    rw [htrim] at hcons
    cases hcons
    rw [if_neg hcolon, scanNested_eq hdepth]
    rw [htext, List.cons_append] at hnested
    rw [hnested, Scan.after_bind, Scan.pure_bind, if_pos rfl, Scan.after_bind, Scan.pure_bind]

theorem boundary_moreText (more : List Expr) : Boundary (moreText more ++ [' ']) := by
  cases more with
  | nil => exact Boundary.space []
  | cons item more => exact Boundary.space _

-- The items of a level behind one that has been read. The level counts them.
theorem scan_more {more : List Expr} (hreads : ∀ item ∈ more, Reads setup item)
    (hlevels : ∀ item ∈ more, item.level ≤ 17)
    (hassignment : itemsAssign more = true → setup.permissions.assignment = true)
    (hroom : ∀ limit ∈ setup.maxDepth, level.depth + itemsNesting more ≤ limit + 1)
    (htop : level.top = false) {state : TokenKind} {count : Nat}
    (hstate : Cursor.AwaitsOperator ⟨pos, state, 0, .items count, .plain⟩) :
    scanLevel setup level ⟨pos, state, 0, .items count, .plain⟩ (moreText more ++ [' ']) =
      (pure ⟨count + more.length, pos + byteLength (moreText more) + 1, 0⟩ : Scan LevelEnd).after
        (moreTokens more pos) := by
  induction more generalizing pos state count with
  | nil =>
      have hstate' : Cursor.AwaitsOperator ⟨pos + 1, state, 0, .items count, .plain⟩ :=
        ⟨rfl, hstate.state⟩
      exact scan_close hstate' htop rfl
  | cons item more ih =>
      have hstate' : Cursor.AwaitsOperator ⟨pos + 1, state, 0, .items count, .plain⟩ :=
        ⟨rfl, hstate.state⟩
      simp only [itemsAssign, Bool.or_eq_true] at hassignment
      simp only [itemsNesting] at hroom
      have hready : item.Ready setup level
          ⟨pos + 1 + 2, .binaryOp, 0, .items (count + 1), .plain⟩ := by
        refine ⟨⟨rfl, Or.inl rfl⟩, ?_, ?_, fun h => hassignment (Or.inl h), ?_⟩
        · intro h
          cases h
        · intro h
          have := hlevels item List.mem_cons_self
          omega
        · intro limit hlimit
          have := hroom limit hlimit
          omega
      have hitem := hreads item List.mem_cons_self level (pos + 1 + 2) .binaryOp 0
        (.items (count + 1)) (moreText more ++ [' ']) hready (boundary_moreText more)
      have hrest := ih
        (fun other hother => hreads other (List.mem_cons_of_mem item hother))
        (fun other hother => hlevels other (List.mem_cons_of_mem item hother))
        (fun h => hassignment (Or.inr h))
        (fun limit hlimit => by have := hroom limit hlimit; omega)
        (item.awaitsOperator_last (pos + 1 + 2 + item.width) 0 (.items (count + 1)))
      have hlength : byteLength (moreText (item :: more)) =
          3 + item.width + byteLength (moreText more) := by
        rw [moreText, byteLength_append, byteLength_append]
        rfl
      rw [hlength]
      simp only [moreText, List.cons_append, List.nil_append, List.append_assoc]
      rw [scan_collect hstate' rfl rfl, hitem, hrest, Scan.after_after, Scan.after_after]
      simp only [moreTokens, List.length_cons, List.append_assoc]
      congr 2
      simp only [LevelEnd.mk.injEq, and_true]
      omega

theorem scan_items {items : List Expr} (hreads : ∀ item ∈ items, Reads setup item)
    (hlevels : ∀ item ∈ items, item.level ≤ 17)
    (hassignment : itemsAssign items = true → setup.permissions.assignment = true)
    (hroom : ∀ limit ∈ setup.maxDepth, level.depth + itemsNesting items ≤ limit) :
    scanItems (itemsText items ++ [' '])
      (fun separators stopAtColon start inner _ =>
        scanNested setup level separators stopAtColon start inner)
      (.items 1) pos = (pure items.length : Scan Nat).after (itemsTokens items pos) := by
  cases items with
  | nil => rfl
  | cons item more =>
      simp only [itemsAssign, Bool.or_eq_true] at hassignment
      simp only [itemsNesting] at hroom
      have hdepth : ∀ limit ∈ setup.maxDepth, level.depth < limit := by
        intro limit hlimit
        have := hroom limit hlimit
        omega
      have hinside : (itemsText (item :: more) ++ [' ']).all isBlank = false := by
        obtain ⟨c, rest, htext, hc, -⟩ := item.exists_text_eq
        simp [itemsText, htext, hc.isBlank_eq]
      have hready : item.Ready setup ⟨false, false, level.depth + 1⟩
          ⟨pos + 1, .start, 0, .items 1, .plain⟩ := by
        refine ready_nested (.items 1) ?_ (fun h => hassignment (Or.inl h)) ?_ false
        · intro h
          have := hlevels item List.mem_cons_self
          omega
        · intro limit hlimit
          have := hroom limit hlimit
          omega
      have hitem := hreads item List.mem_cons_self _ (pos + 1) .start 0 (.items 1)
        (moreText more ++ [' ']) hready (boundary_moreText more)
      have hmore : scanLevel setup ⟨false, false, level.depth + 1⟩
          ⟨pos + 1 + item.width, item.last, 0, .items 1, .plain⟩ (moreText more ++ [' ']) = _ :=
        scan_more (fun other hother => hreads other (List.mem_cons_of_mem item hother))
        (fun other hother => hlevels other (List.mem_cons_of_mem item hother))
        (fun h => hassignment (Or.inr h))
        (fun limit hlimit => by have := hroom limit hlimit; simp only; omega) rfl
        (item.awaitsOperator_last (pos + 1 + item.width) 0 (.items 1))
      rw [scanItems, if_neg (by simp [hinside]), scanNested_eq hdepth]
      simp only [itemsText, List.cons_append, List.nil_append, List.append_assoc]
      rw [scan_space, hitem, hmore, Scan.after_after, Scan.after_bind, Scan.pure_bind]
      simp only [itemsTokens, List.length_cons, Nat.add_comm 1]

end Groups

section Brackets

variable {setup : Setup} {level : Level} {pos ternaries : Nat} {state : TokenKind}
  {separators : Separators} {rest : List Char}

theorem passes_inside {opener closer : Char} (h : IsBracket opener closer) (t : Expr) :
    Passes opener closer (' ' :: (t.text ++ [' '])) :=
  (Passes.space h).append ((passes_text h t).append (.space h))

theorem byteLength_inside (t : Expr) : byteLength (' ' :: (t.text ++ [' '])) = 1 + t.width + 1 := by
  have hcons : byteLength (' ' :: (t.text ++ [' '])) = 1 + byteLength (t.text ++ [' ']) := rfl
  have hspace : byteLength [' '] = 1 := rfl
  rw [hcons, byteLength_append, hspace, width]
  omega

theorem scan_paren {t : Expr} (h : Reads setup t)
    (hvalue : Cursor.AwaitsValue ⟨pos, state, ternaries, separators, .plain⟩)
    (hassignment : t.assigns = true → setup.permissions.assignment = true)
    (hroom : ∀ limit ∈ setup.maxDepth, level.depth + (t.nesting + 1) ≤ limit) :
    scanLevel setup level ⟨pos, state, ternaries, separators, .plain⟩
        ('(' :: ' ' :: (t.text ++ ' ' :: ')' :: rest)) =
      (scanLevel setup level
        ⟨pos + 2 + t.width + 2, .subExpr, ternaries, separators, .plain⟩ rest).after
        ([⟨pos, ['('], .opening .subExpr⟩] ++ t.tokens (pos + 2) ++
          [⟨pos + 2 + t.width + 1, [')'], .closing .subExpr⟩]) := by
  have hround : IsBracket '(' ')' := Or.inl ⟨rfl, rfl⟩
  have htext : '(' :: ' ' :: (t.text ++ ' ' :: ')' :: rest) =
      '(' :: ((' ' :: (t.text ++ [' '])) ++ ')' :: rest) := by simp
  have hclose : pos + 1 + (1 + t.width + 1) = pos + 2 + t.width + 1 := by omega
  rw [htext, scan_group .subExpr '(' ')' rfl rfl hround (nextMove_paren hvalue)
    (passes_inside hround t) (scanInside_paren h hassignment hroom), byteLength_inside, hclose]
  rfl

-- The index behind a name.
theorem scan_index {t : Expr} (h : Reads setup t)
    (hassignment : t.assigns = true → setup.permissions.assignment = true)
    (hroom : ∀ limit ∈ setup.maxDepth, level.depth + (t.nesting + 1) ≤ limit) :
    scanLevel setup level ⟨pos, .name, ternaries, separators, .plain⟩
        (' ' :: '[' :: ' ' :: (t.text ++ ' ' :: ']' :: rest)) =
      (scanLevel setup level
        ⟨pos + 1 + 2 + t.width + 2, .subscript, ternaries, separators, .plain⟩ rest).after
        ([⟨pos + 1, ['['], .opening .subscript⟩] ++ t.tokens (pos + 1 + 2) ++
          [⟨pos + 1 + 2 + t.width + 1, [']'], .closing (.subscript .index)⟩]) := by
  have hsquare : IsBracket '[' ']' := Or.inr ⟨rfl, rfl⟩
  have htext : '[' :: ' ' :: (t.text ++ ' ' :: ']' :: rest) =
      '[' :: ((' ' :: (t.text ++ [' '])) ++ ']' :: rest) := by simp
  have hclose : pos + 1 + 1 + (1 + t.width + 1) = pos + 1 + 2 + t.width + 1 := by omega
  rw [scan_space, htext, scan_group .subscript '[' ']' rfl rfl hsquare (nextMove_subscript rfl rfl)
    (passes_inside hsquare t) (scanInside_subscript h hassignment hroom), byteLength_inside, hclose]
  rfl

section Items

variable {items : List Expr} (hreads : ∀ item ∈ items, Reads setup item)
  (hlevels : ∀ item ∈ items, item.level ≤ 17)
  (hassignment : itemsAssign items = true → setup.permissions.assignment = true)
  (hroom : ∀ limit ∈ setup.maxDepth, level.depth + itemsNesting items ≤ limit)

include hreads hlevels hassignment hroom

theorem scan_list (hscanner : setup.scanner = scanNumber)
    (hvalue : Cursor.AwaitsValue ⟨pos, state, ternaries, separators, .plain⟩) :
    scanLevel setup level ⟨pos, state, ternaries, separators, .plain⟩
        ('[' :: (itemsText items ++ ' ' :: ']' :: rest)) =
      (scanLevel setup level
        ⟨pos + 1 + byteLength (itemsText items) + 2, .listLiteral, ternaries, separators, .plain⟩
        rest).after
        ([⟨pos, ['['], .opening .list⟩] ++ itemsTokens items (pos + 1) ++
          [⟨pos + 1 + byteLength (itemsText items) + 1, [']'], .closing (.list items.length)⟩]) := by
  have hsquare : IsBracket '[' ']' := Or.inr ⟨rfl, rfl⟩
  have hpasses : Passes '[' ']' (itemsText items ++ [' ']) :=
    (passes_itemsText hsquare fun item _ => passes_text hsquare item).append (.space hsquare)
  have htext : '[' :: (itemsText items ++ ' ' :: ']' :: rest) =
      '[' :: ((itemsText items ++ [' ']) ++ ']' :: rest) := by simp
  have hinside : scanInside (itemsText items ++ [' '])
      (fun separators stopAtColon start inner _ =>
        scanNested setup level separators stopAtColon start inner) .list .plain (pos + 1) =
      (pure (.list items.length) : Scan Closing).after (itemsTokens items (pos + 1)) := by
    rw [scanInside, scan_items hreads hlevels hassignment hroom, Scan.after_bind, Scan.pure_bind]
  rw [htext, scan_group .list '[' ']' rfl rfl hsquare (nextMove_list hvalue hscanner) hpasses
    hinside, byteLength_append]
  rfl

theorem scan_call :
    scanLevel setup level ⟨pos, .name, ternaries, separators, .plain⟩
        (' ' :: '(' :: (itemsText items ++ ' ' :: ')' :: rest)) =
      (scanLevel setup level
        ⟨pos + 1 + 1 + byteLength (itemsText items) + 2, .callArgs, ternaries, separators, .plain⟩
        rest).after
        ([⟨pos + 1, ['('], .opening .call⟩] ++ itemsTokens items (pos + 1 + 1) ++
          [⟨pos + 1 + 1 + byteLength (itemsText items) + 1, [')'],
            .closing (.call items.length)⟩]) := by
  have hround : IsBracket '(' ')' := Or.inl ⟨rfl, rfl⟩
  have hpasses : Passes '(' ')' (itemsText items ++ [' ']) :=
    (passes_itemsText hround fun item _ => passes_text hround item).append (.space hround)
  have htext : '(' :: (itemsText items ++ ' ' :: ')' :: rest) =
      '(' :: ((itemsText items ++ [' ']) ++ ')' :: rest) := by simp
  have hinside : scanInside (itemsText items ++ [' '])
      (fun separators stopAtColon start inner _ =>
        scanNested setup level separators stopAtColon start inner) .call .plain (pos + 1 + 1) =
      (pure (.call items.length) : Scan Closing).after (itemsTokens items (pos + 1 + 1)) := by
    rw [scanInside, scan_items hreads hlevels hassignment hroom, Scan.after_bind, Scan.pure_bind]
  rw [scan_space, htext, scan_group .call '(' ')' rfl rfl hround (nextMove_call rfl rfl) hpasses
    hinside, byteLength_append]
  rfl

end Items

end Brackets

end Expr

end FormulaCode
