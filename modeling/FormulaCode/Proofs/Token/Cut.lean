import FormulaCode.Proofs.Number
import FormulaCode.Proofs.Token.Permissions

namespace FormulaCode

theorem head?_cut {text cut : List Char} (hcut : cut <+: text) (hne : cut ≠ []) :
    cut.head? = text.head? := by
  obtain ⟨more, rfl⟩ := hcut
  obtain ⟨c, rest, rfl⟩ := List.exists_cons_of_ne_nil hne
  rfl

theorem isPrefixOf_mono {spelling text cut : List Char} (hcut : cut <+: text)
    (h : spelling.isPrefixOf cut = true) : spelling.isPrefixOf text = true :=
  List.isPrefixOf_iff_prefix.mpr ((List.isPrefixOf_iff_prefix.mp h).trans hcut)

theorem any_head? (p : Char → Bool) (text : List Char) :
    text.head?.any p = !(text.takeWhile p).isEmpty := by
  cases text with
  | nil => rfl
  | cons c rest => by_cases hc : p c = true <;> simp [hc]

-- What is cut off a text behind a token has no part in how the token was found. Words are whole,
-- and so are an assignment and the two signs that are told apart from one.
structure Cut (setup : Setup) (cur : Cursor) (text cut : List Char) : Prop where
  le : cut <+: text
  ne_nil : cut ≠ []
  word : word? cut = word? text
  equals : ['=', '='].isPrefixOf text = ['=', '='].isPrefixOf cut
  percent : ['%', '='].isPrefixOf text = ['%', '='].isPrefixOf cut
  assigns : setup.permissions.assignment = true → .assignOp ∈ cur.state.successors →
    ∀ entry, assignment? text = some entry → entry.1.length ≤ cut.length

-- A table without empty spellings, whose words have no other characters.
def IsSpelled (table : List (List Char × α)) : Prop :=
  ∀ entry ∈ table, entry.1 ≠ [] ∧
    (startsWithLetter entry.1 = true → entry.1.all isIdentChar = true)

theorem isSpelled_unary : IsSpelled Operator.unarySpellings := by
  unfold IsSpelled
  decide

theorem isSpelled_binary : IsSpelled Operator.binarySpellings := by
  unfold IsSpelled
  decide

theorem isSpelled_assignment : IsSpelled Assignment.spellings := by
  unfold IsSpelled
  decide

namespace Cut

variable {setup : Setup} {cur : Cursor} {text cut : List Char}

theorem head? (h : Cut setup cur text cut) : cut.head? = text.head? :=
  head?_cut h.le h.ne_nil

theorem isEmpty (h : Cut setup cur text cut) : cut.isEmpty = text.isEmpty := by
  obtain ⟨more, rfl⟩ := h.le
  obtain ⟨c, rest, rfl⟩ := List.exists_cons_of_ne_nil h.ne_nil
  rfl

-- A word in the table is found in the one text if it is in the other, as it must be the whole word
-- in front of both.
theorem next_of_word (h : Cut setup cur text cut) {spelling : List Char}
    (hletter : startsWithLetter spelling = true) (hword : ∀ c ∈ spelling, isIdentChar c = true)
    (hspelling : spelling <+: cut) :
    (cut.drop spelling.length).head?.any isIdentChar =
      (text.drop spelling.length).head?.any isIdentChar := by
  obtain ⟨tail, rfl⟩ := hspelling
  obtain ⟨more, rfl⟩ := h.le
  have hwords := h.word
  obtain ⟨c, rest, rfl⟩ : ∃ c rest, spelling = c :: rest := by
    cases spelling with
    | nil => cases hletter
    | cons c rest => exact ⟨c, rest, rfl⟩
  have hstarts : ∀ after, startsWithLetter (c :: rest ++ after) = true := fun _ => hletter
  rw [List.append_assoc] at hwords ⊢
  simp only [word?, hstarts, if_true, Option.some.injEq, List.takeWhile_append_of_pos hword,
    List.append_cancel_left_eq] at hwords
  rw [List.drop_left, List.drop_left, any_head?, any_head?, hwords]

theorem isPrefixOf_eq (h : Cut setup cur text cut) {spelling : List Char}
    (hle : spelling.length ≤ cut.length) : spelling.isPrefixOf cut = spelling.isPrefixOf text := by
  rw [Bool.eq_iff_iff]
  refine ⟨isPrefixOf_mono h.le, fun htext => ?_⟩
  exact List.isPrefixOf_iff_prefix.mpr
    (List.prefix_of_prefix_length_le (List.isPrefixOf_iff_prefix.mp htext) h.le hle)

-- What a table finds in the text it finds in what is left of it, unless it is longer.
theorem spelled? (h : Cut setup cur text cut) {table : List (List Char × α)}
    (htable : IsSpelled table) :
    FormulaCode.spelled? table cut = FormulaCode.spelled? table text ∨
      ∃ entry, FormulaCode.spelled? table text = some entry ∧ cut.length < entry.1.length := by
  induction table with
  | nil => exact Or.inl rfl
  | cons entry table ih =>
      obtain ⟨spelling, meaning⟩ := entry
      have hrest := ih fun entry hentry => htable entry (List.mem_cons_of_mem _ hentry)
      have hword := (htable _ List.mem_cons_self).2
      simp only [FormulaCode.spelled?, List.find?_cons] at hrest ⊢
      by_cases hle : spelling.length ≤ cut.length
      · rw [h.isPrefixOf_eq hle]
        cases hfits : spelling.isPrefixOf text with
        | false => simpa using hrest
        | true =>
            have hspelling : spelling <+: cut :=
              List.isPrefixOf_iff_prefix.mp ((h.isPrefixOf_eq hle).trans hfits)
            cases hletter : startsWithLetter spelling with
            | false => simp
            | true =>
                rw [h.next_of_word hletter (List.all_eq_true.mp (hword hletter)) hspelling]
                cases (text.drop spelling.length).head?.any isIdentChar with
                | false => simp
                | true => simpa using hrest
      · have hcut : spelling.isPrefixOf cut = false := by
          rw [← Bool.not_eq_true]
          intro hfits
          exact hle (List.isPrefixOf_iff_prefix.mp hfits).length_le
        simp only [hcut, Bool.false_and]
        split
        · exact Or.inr ⟨_, rfl, Nat.lt_of_not_le hle⟩
        · exact hrest

theorem assignment? (h : Cut setup cur text cut) :
    FormulaCode.assignment? cut = FormulaCode.assignment? text ∨
      ∃ entry, FormulaCode.assignment? text = some entry ∧ cut.length < entry.1.length := by
  unfold FormulaCode.assignment?
  rw [h.equals]
  split
  · exact Or.inl rfl
  · exact h.spelled? isSpelled_assignment

end Cut

-- The number of characters that a move takes at least.
def Move.extent : Move → Nat
  | token _ extra _ | binder _ extra => extra + 1
  | group _ => 1
  | finish => 0

section Recognise

variable {setup : Setup} {level : Level} {cur : Cursor} {text cut : List Char}

-- A second look at the text that is left: it gives the same, unless there was a failure or a token
-- that goes on behind it.
def CutAlike (cut : List Char) (first second : Except LexError (Option Move)) : Prop :=
  second = first ∨ (∃ e, first = .error e) ∨ ∃ move, first = .ok (some move) ∧ cut.length < move.extent

theorem stringToken_cut (h : Cut setup cur text cut) :
    CutAlike cut (cur.stringToken text) (cur.stringToken cut) := by
  unfold Cursor.stringToken
  cases hscan : Literal.scan text with
  | absent => exact Or.inl (by rw [Literal.scan_absent_cut hscan h.le])
  | unterminated => exact Or.inr (Or.inl ⟨_, rfl⟩)
  | found literal =>
      by_cases hwidth : literal.width ≤ cut.length
      · exact Or.inl (by rw [Literal.scan_cut hscan h.le hwidth])
      · have hpos := literal.width_pos
        refine Or.inr (Or.inr ⟨_, rfl, ?_⟩)
        simp only [Move.extent]
        omega

theorem stepMove_cut (h : Cut setup cur text cut) (minus plus : Form) :
    CutAlike cut (.ok (cur.stepMove minus plus text)) (.ok (cur.stepMove minus plus cut)) := by
  by_cases hle : 2 ≤ cut.length
  · have hsame : ∀ c d, [c, d].isPrefixOf cut = [c, d].isPrefixOf text :=
      fun c d => h.isPrefixOf_eq hle
    left
    simp only [Cursor.stepMove, hsame]
  · have hcut : ∀ c d, [c, d].isPrefixOf cut = false := by
      intro c d
      rw [← Bool.not_eq_true]
      intro hfits
      exact hle (List.isPrefixOf_iff_prefix.mp hfits).length_le
    simp only [Cursor.stepMove, hcut, Bool.false_eq_true, if_false]
    split
    · exact Or.inr (Or.inr ⟨_, rfl, Nat.lt_of_not_le hle⟩)
    · split
      · exact Or.inr (Or.inr ⟨_, rfl, Nat.lt_of_not_le hle⟩)
      · exact Or.inl rfl

-- A token that is spelled in a table.
theorem spelling_cut {first second : Option (List Char × α)} (form : α → Form)
    (h : second = first ∨ ∃ entry, first = some entry ∧ cut.length < entry.1.length) :
    CutAlike cut (.ok (do let (spelling, op) ← first; cur.token (form op) spelling.length))
      (.ok (do let (spelling, op) ← second; cur.token (form op) spelling.length)) := by
  rcases h with rfl | ⟨entry, rfl, hlong⟩
  · exact Or.inl rfl
  · refine Or.inr (Or.inr ⟨_, rfl, ?_⟩)
    simp only [Move.extent]
    omega

theorem binaryMove_cut (h : Cut setup cur text cut) :
    CutAlike cut (cur.binaryMove setup text) (cur.binaryMove setup cut) := by
  have hassigns : (setup.permissions.assignment && cur.state.successors.contains .assignOp &&
      (assignment? cut).isSome) = (setup.permissions.assignment &&
        cur.state.successors.contains .assignOp && (assignment? text).isSome) := by
    rcases h.assignment? with hsame | ⟨entry, hentry, hlong⟩
    · rw [hsame]
    · cases hallowed : setup.permissions.assignment with
      | false => rfl
      | true =>
          cases hfollows : cur.state.successors.contains .assignOp with
          | false => rfl
          | true =>
              have hroom := h.assigns hallowed (List.contains_iff_mem.mp hfollows) entry hentry
              omega
  simp only [Cursor.binaryMove, h.head?, hassigns]
  split
  · exact Or.inl rfl
  · split
    · exact Or.inl rfl
    · exact spelling_cut .binary (h.spelled? isSpelled_binary)

theorem numberMove_cut (hscanner : setup.scanner = scanNumber) (h : Cut setup cur text cut) :
    CutAlike cut (.ok (cur.numberMove setup text)) (.ok (cur.numberMove setup cut)) := by
  simp only [Cursor.numberMove, hscanner]
  cases hscan : scanNumber text with
  | none => exact Or.inl (by rw [scanNumber_none_cut hscan h.le]; rfl)
  | some found =>
      obtain ⟨value, width⟩ := found
      have hlength := h.le.length_le
      by_cases hle : width ≤ cut.length
      · left
        rw [scanNumber_cut hscan h.le hle]
        simp [hle, Nat.le_trans hle hlength]
      · have hwidth : width ≤ text.length := by
          obtain ⟨numeral, hnumeral, ⟨⟩⟩ := Option.map_eq_some_iff.mp hscan
          obtain ⟨after, rfl, -⟩ := Numeral.scan_eq_some hnumeral
          simp
        have hpos : 0 < width := by omega
        refine Or.inr (Or.inr ⟨.token .number (width - 1) { cur with callee := .plain }, ?_, ?_⟩)
        · simp [hwidth, hpos, Cursor.token]
        · simp only [Move.extent]
          omega

theorem recognise_cut (hscanner : setup.scanner = scanNumber)
    (h : Cut setup cur text cut) (kind : TokenKind) :
    CutAlike cut (recognise setup level cur text kind) (recognise setup level cur cut kind) := by
  cases kind with
  | start => exact Or.inl rfl
  | stringLiteral => exact stringToken_cut h
  | substOperator => exact Or.inl (by simp only [recognise, h.head?, h.percent])
  | substArgs | subExpr | callArgs | listLiteral | dictLiteral | subscript =>
      exact Or.inl (by simp only [recognise, Cursor.groupMove, h.head?])
  | postfixOp | prefixOp => exact stepMove_cut h _ _
  | name => exact Or.inl (by simp only [recognise, Cursor.nameMove, h.word])
  | memberName | dollarName => exact Or.inl (by simp only [recognise, h.word])
  | unaryOp => exact spelling_cut .unary (h.spelled? isSpelled_unary)
  | binaryOp => exact binaryMove_cut h
  | ternaryOp => exact Or.inl (by simp only [recognise, Cursor.ternaryMove, h.head?])
  | number => exact numberMove_cut hscanner h
  | dollar | dot => exact Or.inl (by simp only [recognise, h.head?])
  | assignOp =>
      simp only [recognise]
      split
      · exact spelling_cut .assign h.assignment?
      · exact Or.inl rfl
  | finish => exact Or.inl (by simp only [recognise, Cursor.finishMove, h.head?, h.isEmpty])

-- The next move is the same in a text that is cut behind it.
theorem nextMove_cut (hscanner : setup.scanner = scanNumber)
    (h : Cut setup cur text cut) {move : Move} (hmove : nextMove setup level cur text = .ok move)
    (hextent : move.extent ≤ cut.length) : nextMove setup level cur cut = .ok move := by
  obtain ⟨before, kind, after, hcandidates, hbefore, hkind⟩ := nextMove_eq_ok_iff.mp hmove
  refine nextMove_eq before kind after hcandidates (fun other hother => ?_) ?_
  · have hnone := hbefore other hother
    rcases recognise_cut hscanner h other with hsame | ⟨e, he⟩ | ⟨found, hfound, -⟩
    · rw [hsame, hnone]
    · rw [hnone] at he
      cases he
    · rw [hnone] at hfound
      cases hfound
  · rcases recognise_cut hscanner h kind with hsame | ⟨e, he⟩ | ⟨found, hfound, hlong⟩
    · rw [hsame, hkind]
    · rw [hkind] at he
      cases he
    · rw [hkind] at hfound
      cases hfound
      omega

end Recognise

section Extent

variable {setup : Setup} {level : Level} {cur : Cursor} {c : Char} {rest : List Char}

-- A word that is spelled in a table is a whole word.
theorem word_of_spelled? {table : List (List Char × α)} (htable : IsSpelled table)
    (halpha : c.isAlpha = true) {entry : List Char × α}
    (h : spelled? table (c :: rest) = some entry) :
    entry.1 = c :: rest.takeWhile isIdentChar := by
  obtain ⟨spelling, meaning⟩ := entry
  have hident : isIdentChar c = true := by simp [isIdentChar, Char.isAlphanum, halpha]
  have hfits := List.find?_some h
  obtain ⟨hne, hword⟩ := htable _ (mem_of_spelled? h)
  simp only [Bool.and_eq_true, Bool.not_eq_true'] at hfits
  obtain ⟨more, htext⟩ := List.isPrefixOf_iff_prefix.mp hfits.1
  have hletter : startsWithLetter spelling = true := by
    cases spelling with
    | nil => exact absurd rfl hne
    | cons d tail =>
        obtain ⟨rfl, -⟩ := List.cons.inj htext
        exact halpha
  have hends : (more.takeWhile isIdentChar).isEmpty = true := by
    have hguard := hfits.2
    rw [hletter, Bool.true_and, ← htext, List.drop_left, any_head?, Bool.not_eq_false'] at hguard
    exact hguard
  have htake : (c :: rest).takeWhile isIdentChar = spelling := by
    rw [← htext, List.takeWhile_append_of_pos (List.all_eq_true.mp (hword hletter)),
      List.isEmpty_iff.mp hends, List.append_nil]
  rw [← htake, List.takeWhile_cons_of_pos hident]

theorem scanNumber_of_isAlpha (halpha : c.isAlpha = true) : scanNumber (c :: rest) = none := by
  refine scanNumber_eq_none ?_ (ne_of_class halpha (by decide))
  cases hdigit : c.isDigit with
  | false => rfl
  | true => rw [isAlpha_of_isDigit hdigit] at halpha; cases halpha

theorem spelled?_of_assignment? {text : List Char} {entry : List Char × Assignment}
    (h : assignment? text = some entry) : spelled? Assignment.spellings text = some entry := by
  unfold assignment? at h
  split at h
  · cases h
  · exact h

-- A move in front of a word takes all of it, or a literal with a mark of one letter.
theorem word_le_extent (hscanner : setup.scanner = scanNumber) (halpha : c.isAlpha = true)
    {kind : TokenKind} {move : Move} (hne : move ≠ .finish)
    (h : recognise setup level cur (c :: rest) kind = .ok (some move)) :
    (c :: rest.takeWhile isIdentChar).length ≤ move.extent := by
  have hident : isIdentChar c = true := by simp [isIdentChar, Char.isAlphanum, halpha]
  have hword : word? (c :: rest) = some (c :: rest.takeWhile isIdentChar) := by
    have hletter : startsWithLetter (c :: rest) = true := halpha
    rw [word?, if_pos hletter, List.takeWhile_cons_of_pos hident]
  have hhead : ∀ d : Char, d.isAlpha = false → (c :: rest).head? ≠ some d := by
    intro d hd hsame
    exact ne_of_class halpha hd (Option.some.inj hsame)
  cases kind with
  | start => cases h
  | stringLiteral =>
      have hquote : isQuote c = false := isQuote_of_class halpha (by decide) (by decide)
      cases rest with
      | nil =>
          rw [recognise_stringLiteral_none hquote (by simp)] at h
          cases h
      | cons d more =>
          cases hd : isQuote d with
          | false =>
              rw [recognise_stringLiteral_none hquote (by simpa using fun _ => hd)] at h
              cases h
          | true =>
              have hd' : isIdentChar d = false := by
                rcases (Bool.or_eq_true _ _).mp hd with hd | hd <;>
                  rw [of_decide_eq_true hd] <;> decide
              simp only [recognise, Cursor.stringToken] at h
              split at h <;> cases h
              simp [hd', Move.extent]
  | name =>
      simp only [recognise, Cursor.nameMove, hword, Except.ok.injEq, bind, Option.bind] at h
      split at h
      · cases h
      · split at h <;> cases h <;> exact Nat.le_refl _
  | memberName | dollarName =>
      simp only [recognise, hword] at h
      cases h
      exact Nat.le_refl _
  | number =>
      simp only [recognise, Cursor.numberMove, hscanner, scanNumber_of_isAlpha halpha] at h
      cases h
  | unaryOp =>
      obtain ⟨entry, hentry, hfound⟩ := Option.bind_eq_some_iff.mp (Except.ok.inj h)
      cases hfound
      rw [← word_of_spelled? isSpelled_unary halpha hentry]
      exact Nat.le_add_of_sub_le (Nat.le_refl _)
  | binaryOp =>
      simp only [recognise, Cursor.binaryMove, if_neg (hhead ',' (by decide))] at h
      split at h
      · cases h
      · obtain ⟨entry, hentry, hfound⟩ := Option.bind_eq_some_iff.mp (Except.ok.inj h)
        cases hfound
        rw [← word_of_spelled? isSpelled_binary halpha hentry]
        exact Nat.le_add_of_sub_le (Nat.le_refl _)
  | assignOp =>
      simp only [recognise, Except.ok.injEq, Option.ite_none_right_eq_some] at h
      obtain ⟨entry, hentry, hfound⟩ := Option.bind_eq_some_iff.mp h.2
      cases hfound
      rw [← word_of_spelled? isSpelled_assignment halpha (spelled?_of_assignment? hentry)]
      exact Nat.le_add_of_sub_le (Nat.le_refl _)
  | finish =>
      simp only [recognise, Cursor.finishMove, Except.ok.injEq, Option.ite_none_right_eq_some,
        Option.some.injEq] at h
      exact absurd h.2.symm hne
  | substArgs | subExpr | callArgs | listLiteral | dictLiteral | subscript =>
      simp only [recognise, Cursor.groupMove, Except.ok.injEq, Option.ite_none_right_eq_some] at h
      exact absurd h.1 (hhead _ (by decide))
  | postfixOp | prefixOp =>
      simp only [recognise, stepMove_eq_none (ne_of_class halpha (by decide))
        (ne_of_class halpha (by decide))] at h
      cases h
  | ternaryOp =>
      simp only [recognise, Cursor.ternaryMove, if_neg (hhead '?' (by decide)),
        if_neg (hhead ':' (by decide))] at h
      cases h
  | dot =>
      simp only [recognise, Except.ok.injEq, Option.ite_none_right_eq_some] at h
      exact absurd h.1 (hhead _ (by decide))
  | dollar =>
      simp only [recognise, Except.ok.injEq, Option.ite_none_right_eq_some, Bool.and_eq_true,
        decide_eq_true_eq] at h
      exact absurd h.1.2 (hhead _ (by decide))
  | substOperator =>
      simp only [recognise, Except.ok.injEq, Option.ite_none_right_eq_some, Bool.and_eq_true,
        decide_eq_true_eq] at h
      exact absurd h.1.1 (hhead _ (by decide))

theorem extent_of_equals {more : List Char} (hc : c = '=' ∨ c = '%')
    (hscanner : setup.scanner = scanNumber) {kind : TokenKind} {move : Move} (hne : move ≠ .finish)
    (h : recognise setup level cur (c :: '=' :: more) kind = .ok (some move)) :
    2 ≤ move.extent ∨ (move.kind = .binaryOp ∧ move.extent = 1) := by
  have hclass : c.isDigit = false ∧ c ≠ '.' ∧ isQuote c = false ∧ c.isAlpha = false := by
    rcases hc with rfl | rfl <;> decide
  cases kind with
  | stringLiteral =>
      rw [recognise_stringLiteral_none hclass.2.2.1 (by simp [hclass.2.2.2])] at h
      cases h
  | number =>
      simp only [recognise, Cursor.numberMove, hscanner, scanNumber_eq_none hclass.1 hclass.2.1] at h
      cases h
  | binaryOp =>
      rcases hc with rfl | rfl
      · have hspelled : spelled? Operator.binarySpellings ('=' :: '=' :: more) =
            some (['=', '='], .equal) := rfl
        simp only [recognise, binaryMove_of_spelled hspelled] at h
        split at h <;> cases h
        exact Or.inl (Nat.le_refl _)
      · have hspelled : spelled? Operator.binarySpellings ('%' :: '=' :: more) =
            some (['%'], .modulo) := rfl
        simp only [recognise, binaryMove_of_spelled hspelled] at h
        split at h <;> cases h
        exact Or.inr ⟨rfl, rfl⟩
  | assignOp =>
      simp only [recognise, Except.ok.injEq, Option.ite_none_right_eq_some] at h
      rcases hc with rfl | rfl
      · cases h.2
      · cases h.2
        exact Or.inl (Nat.le_refl _)
  | finish =>
      simp only [recognise, Cursor.finishMove, Except.ok.injEq, Option.ite_none_right_eq_some,
        Option.some.injEq] at h
      exact absurd h.2.symm hne
  | dollar => rcases hc with rfl | rfl <;> simp [recognise] at h
  | _ => rcases hc with rfl | rfl <;> cases h

-- What may stand where an assignment does is no kind of token that an assignment begins with.
theorem recognise_of_assignment? {text : List Char} {entry : List Char × Assignment}
    (h : assignment? text = some entry) {kind : TokenKind}
    (hkind : kind ∈ [TokenKind.postfixOp, .ternaryOp, .callArgs, .subscript, .dot]) :
    recognise setup level cur text kind = .ok none := by
  have hall : ∀ entry ∈ Assignment.spellings, ∀ more,
      ∀ kind ∈ [TokenKind.postfixOp, .ternaryOp, .callArgs, .subscript, .dot],
        recognise setup level cur (entry.1 ++ more) kind = .ok none := by
    simp only [Assignment.spellings, List.forall_mem_cons, List.not_mem_nil, false_imp_iff,
      implies_true, and_true]
    refine ⟨?_, ?_, ?_, ?_, ?_, ?_, ?_, ?_, ?_, ?_, ?_, ?_⟩
    all_goals exact fun _ => ⟨rfl, rfl, rfl, rfl, rfl⟩
  have hspelled := spelled?_of_assignment? h
  have hfits := List.find?_some hspelled
  simp only [Bool.and_eq_true] at hfits
  obtain ⟨more, rfl⟩ := List.isPrefixOf_iff_prefix.mp hfits.1
  exact hall entry (mem_of_spelled? hspelled) more kind hkind

theorem TokenKind.mem_successors_of_assignOp {state : TokenKind}
    (h : TokenKind.assignOp ∈ state.successors) :
    ∀ kind ∈ state.successors,
      kind ∈ [postfixOp, ternaryOp, callArgs, subscript, dot] ∨ kind = binaryOp ∨ kind = assignOp ∨
        kind = finish := by
  revert h
  cases state <;> decide

theorem extent_of_assignment {text : List Char} {move : Move} (hne : move ≠ .finish)
    (hallowed : setup.permissions.assignment = true)
    (hfollows : .assignOp ∈ cur.state.successors) {entry : List Char × Assignment}
    (hentry : assignment? text = some entry) (hmove : nextMove setup level cur text = .ok move) :
    entry.1.length ≤ move.extent := by
  have hnone : ∀ {kind}, kind ∈ [TokenKind.postfixOp, .ternaryOp, .callArgs, .subscript, .dot] →
      recognise setup level cur text kind ≠ .ok (some move) := by
    intro kind hkind hfound
    rw [recognise_of_assignment? hentry hkind] at hfound
    cases hfound
  obtain ⟨kind, hmem, hkind⟩ := nextMove_eq_ok hmove
  have hmem : kind ∈ [TokenKind.postfixOp, .ternaryOp, .callArgs, .subscript, .dot] ∨
      kind = .binaryOp ∨ kind = .assignOp ∨ kind = .finish := by
    unfold Cursor.candidates at hmem
    split at hmem
    · rw [List.mem_singleton.mp hmem]
      exact Or.inl (by decide)
    · exact TokenKind.mem_successors_of_assignOp hfollows kind hmem
  rcases hmem with hother | rfl | rfl | rfl
  · exact absurd hkind (hnone hother)
  · have hcomma : text.head? ≠ some ',' := by
      rcases assignment?_cases (Option.isSome_of_mem hentry) with
        ⟨hhead, -⟩ | ⟨_, _, _, hspelled, -, -⟩
      · rw [hhead]
        decide
      · exact head?_ne_comma hspelled
    simp only [recognise, Cursor.binaryMove, if_neg hcomma, hallowed, hentry, Option.isSome_some,
      List.contains_iff_mem.mpr hfollows, Bool.and_self, if_true] at hkind
    cases hkind
  · simp only [recognise, hallowed, if_true, hentry] at hkind
    cases hkind
    exact Nat.le_add_of_sub_le (Nat.le_refl _)
  · simp only [recognise, Cursor.finishMove, Except.ok.injEq, Option.ite_none_right_eq_some,
      Option.some.injEq] at hkind
    exact absurd hkind.2.symm hne

-- A text that is cut behind a move, with no equals sign behind an operator.
theorem cut_of_nextMove (hscanner : setup.scanner = scanNumber) {cut : List Char} {move : Move}
    (hmove : nextMove setup level cur (c :: rest) = .ok move) (hne : move ≠ .finish)
    (hcut : cut <+: c :: rest) (hextent : move.extent ≤ cut.length)
    (hequals : move.kind = .binaryOp → ((c :: rest).drop move.extent).head? ≠ some '=') :
    Cut setup cur (c :: rest) cut := by
  obtain ⟨kind, -, hkind⟩ := nextMove_eq_ok hmove
  have hpos : 0 < move.extent := by
    cases move with
    | finish => exact absurd rfl hne
    | _ => exact Nat.succ_pos _
  have hcut_ne : cut ≠ [] := by
    rintro rfl
    exact absurd hextent (Nat.not_le_of_lt hpos)
  -- Two characters of which the second is an equals sign are not cut between.
  have hpair : ∀ d, d = '=' ∨ d = '%' →
      [d, '='].isPrefixOf (c :: rest) = [d, '='].isPrefixOf cut := by
    intro d hd
    rw [Bool.eq_iff_iff]
    refine ⟨fun htext => ?_, isPrefixOf_mono hcut⟩
    have hfits := List.isPrefixOf_iff_prefix.mp htext
    refine List.isPrefixOf_iff_prefix.mpr (List.prefix_of_prefix_length_le hfits hcut ?_)
    obtain ⟨more, hmore⟩ := hfits
    rw [← hmore] at hkind hequals
    rcases extent_of_equals hd hscanner hne hkind with hlong | ⟨hbinary, hone⟩
    · exact Nat.le_trans hlong hextent
    · rw [hone] at hequals
      exact absurd rfl (hequals hbinary)
  refine ⟨hcut, hcut_ne, ?_, hpair '=' (Or.inl rfl), hpair '%' (Or.inr rfl), ?_⟩
  · have hletter : startsWithLetter cut = startsWithLetter (c :: rest) := by
      rw [startsWithLetter, startsWithLetter, head?_cut hcut hcut_ne]
    rw [word?, word?, hletter]
    split
    · rename_i halpha
      have halpha : c.isAlpha = true := halpha
      have hident : isIdentChar c = true := by simp [isIdentChar, Char.isAlphanum, halpha]
      have hword := word_le_extent hscanner halpha hne hkind
      rw [← List.takeWhile_cons_of_pos hident] at hword
      rw [(takeWhile_cut hcut (Nat.le_trans hword hextent)).1]
    · rfl
  · intro hallowed hfollows entry hentry
    exact Nat.le_trans (extent_of_assignment hne hallowed hfollows hentry hmove) hextent

end Extent

-- A level that leaves some characters of its text, and one that ends in the same way but leaves
-- none.
def Scan.EndsAlike (left : Nat) (first second : Scan LevelEnd) : Prop :=
  ∀ ending, first.outcome = .ok ending → ending.left = left →
    second = ⟨first.tokens, .ok { ending with left := 0 }⟩

theorem Scan.EndsAlike.refl (run : Scan LevelEnd) : run.EndsAlike 0 run := by
  rintro ⟨items, stop, left⟩ hending rfl
  cases run
  rw [← hending]

theorem Scan.EndsAlike.bind {left : Nat} (run : Scan α) {next later : α → Scan LevelEnd}
    (h : ∀ a, (next a).EndsAlike left (later a)) :
    (run >>= next).EndsAlike left (run >>= later) := by
  intro ending hending hleft
  obtain ⟨a, ha, hnext⟩ := Scan.exists_of_bind hending
  rw [Scan.bind_of_ok ha, Scan.bind_of_ok ha, h a ending hnext hleft]
  rfl

theorem endLevel_endsAlike {level : Level} {cur : Cursor} (left : Nat) :
    (endLevel level cur left).EndsAlike left (endLevel level cur 0) := by
  intro ending hending _
  unfold endLevel at hending ⊢
  split at hending
  · cases hending
  · cases htop : level.top <;> rw [htop] at hending <;> cases hending <;> rfl

section Levels

variable {setup : Setup} {level : Level}

-- Two ways to divide a text, of which the second leaves no more.
theorem exists_of_append_eq_append {before rest cut left : List Char}
    (h : before ++ rest = cut ++ left) (hle : left.length ≤ rest.length) :
    ∃ more, cut = before ++ more ∧ rest = more ++ left := by
  rcases List.append_eq_append_iff.mp h with ⟨more, hcut, hrest⟩ | ⟨more, hbefore, hleft⟩
  · exact ⟨more, hcut, hrest⟩
  · have hempty : more = [] := by
      rw [hleft, List.length_append] at hle
      exact List.eq_nil_of_length_eq_zero (by omega)
    subst hempty
    exact ⟨[], by simpa using hbefore.symm, by simpa using hleft.symm⟩

theorem left_le_of_scanLevel {cur : Cursor} {text : List Char} {ending : LevelEnd}
    (h : (scanLevel setup level cur text).outcome = .ok ending) : ending.left ≤ text.length := by
  obtain ⟨before, rest, rfl, hleft, -⟩ := scanLevel_splits h
  simp [← hleft]

-- The number of characters that a move takes behind the first.
def Move.reach (text : List Char) : Move → Nat
  | token _ extra _ | binder _ extra => extra
  | group found => ((matching? (· = found.opener) (· = found.closer) text).getD []).length
  | finish => 0

variable {cur : Cursor} {c : Char}

theorem left_le_of_scanMove {rest : List Char} {move : Move} {ending : LevelEnd}
    (hne : move ≠ .finish) (h : (scanMove setup level cur c rest move).outcome = .ok ending) :
    ending.left ≤ (rest.drop (move.reach (c :: rest))).length := by
  cases move with
  | finish => exact absurd rfl hne
  | token form extra next => exact left_le_of_scanLevel h
  | binder stem extra =>
      obtain ⟨_, -, h⟩ := Scan.exists_of_bind h
      obtain ⟨_, -, h⟩ := Scan.exists_of_bind h
      exact left_le_of_scanLevel h
  | group group =>
      simp only [scanMove] at h
      split at h
      · cases h
      · rename_i before hmatch
        obtain ⟨_, -, h⟩ := Scan.exists_of_bind h
        obtain ⟨_, -, h⟩ := Scan.exists_of_bind h
        obtain ⟨_, -, h⟩ := Scan.exists_of_bind h
        simp only [Move.reach, hmatch, Option.getD_some]
        exact left_le_of_scanLevel h

-- A move that ends before the cut does the same in what is left.
theorem scanMove_endsAlike {rest left : List Char}
    (ih : ∀ text : List Char, text.length ≤ (rest ++ left).length → ∀ cur cut left,
      text = cut ++ left →
        (scanLevel setup level cur text).EndsAlike left.length (scanLevel setup level cur cut))
    {move : Move} (hne : move ≠ .finish) (hreach : move.reach (c :: (rest ++ left)) ≤ rest.length) :
    (scanMove setup level cur c (rest ++ left) move).EndsAlike left.length
      (scanMove setup level cur c rest move) := by
  have hrest : ∀ count ≤ rest.length, ∀ cur,
      (scanLevel setup level cur ((rest ++ left).drop count)).EndsAlike left.length
        (scanLevel setup level cur (rest.drop count)) := by
    intro count hcount cur
    exact ih _ (by simp) cur _ left (List.drop_append_of_le_length hcount)
  cases move with
  | finish => exact absurd rfl hne
  | token form extra next =>
      have hreach : extra ≤ rest.length := hreach
      simp only [scanMove, List.take_append_of_le_length hreach]
      exact .bind _ fun _ => hrest extra hreach _
  | binder stem extra =>
      have hreach : extra ≤ rest.length := hreach
      simp only [scanMove, List.take_append_of_le_length hreach]
      exact .bind _ fun _ => .bind _ fun _ => hrest extra hreach _
  | group group =>
      simp only [scanMove]
      split
      · rintro _ ⟨⟩
      · rename_i before hmatch
        simp only [Move.reach, hmatch, Option.getD_some] at hreach
        have hagain : matching? (· = group.opener) (· = group.closer) (c :: rest) = some before :=
          matching?_cut hmatch ⟨left, rfl⟩ (Nat.lt_succ_of_le hreach)
        have htake : (rest ++ left).take (before.length - 1) = rest.take (before.length - 1) :=
          List.take_append_of_le_length (by omega)
        simp only [hagain]
        rw [htake]
        exact .bind _ fun _ => .bind _ fun _ => .bind _ fun _ => hrest _ hreach _

-- No operator stands in front of an equals sign.
theorem head?_ne_equals (hscanner : setup.scanner = scanNumber) {rest : List Char} {move : Move}
    (hmove : nextMove setup level cur (c :: rest) = .ok move) {ending : LevelEnd}
    (hrun : (scanMove setup level cur c rest move).outcome = .ok ending)
    (hbinary : move.kind = .binaryOp) : ((c :: rest).drop move.extent).head? ≠ some '=' := by
  cases move with
  | finish | binder => cases hbinary
  | group group => cases group <;> cases hbinary
  | token form extra next =>
      obtain ⟨kind, -, hkind⟩ := nextMove_eq_ok hmove
      have hsame : kind = .binaryOp := (kind_of_recognise hkind).symm.trans hbinary
      have hplain : next.callee = .plain := plain_of_recognise (by rw [hsame]; decide) hkind
      intro hequals
      obtain ⟨more, hmore⟩ := List.head?_eq_some_iff.mp hequals
      obtain ⟨_, -, hrest⟩ := Scan.exists_of_bind hrun
      have hdrop : rest.drop extra = '=' :: more := hmore
      rw [hdrop, scanLevel_cons (by decide)] at hrest
      obtain ⟨later, hlater, -⟩ := Scan.exists_of_bind hrest
      have hnone : ∀ more, setup.scanner ('=' :: more) = none := by
        intro more
        rw [hscanner]
        exact scanNumber_eq_none (by decide) (by decide)
      refine nextMove_equals_ne_ok hnone ?_ ?_ more later hlater
      · exact hbinary
      · exact hplain

theorem finish_mem_candidates {text : List Char}
    (h : nextMove setup level cur text = .ok .finish) : .finish ∈ cur.candidates := by
  obtain ⟨kind, hmem, hkind⟩ := nextMove_eq_ok h
  rw [show TokenKind.finish = kind from kind_of_recognise hkind]
  exact hmem

theorem Move.extent_le_reach (text : List Char) (move : Move) :
    move.extent ≤ move.reach text + 1 := by
  cases move with
  | token | binder => exact Nat.le_refl _
  | group => exact Nat.succ_le_succ (Nat.zero_le _)
  | finish => exact Nat.zero_le _

-- A level is read in the same way when what it leaves is cut off.
theorem scanLevel_cut (hscanner : setup.scanner = scanNumber) (text : List Char) :
    ∀ cur cut left, text = cut ++ left →
      (scanLevel setup level cur text).EndsAlike left.length (scanLevel setup level cur cut) := by
  induction text using scan_induction with
  | blank skipped hskipped =>
      intro cur cut left htext ending hrun hleft
      have hempty : left = [] := by
        rw [scanLevel_skip hskipped, scanLevel_end] at hrun
        split at hrun
        · rw [(endLevel_eq_ok hrun).2] at hleft
          exact List.eq_nil_of_length_eq_zero hleft.symm
        · cases hrun
      subst hempty
      rw [List.append_nil cut] at htext
      rw [htext] at hrun ⊢
      exact Scan.EndsAlike.refl _ ending hrun hleft
  | step skipped c rest hskipped hc ih =>
      intro cur cut left htext
      by_cases hempty : left = []
      · subst hempty
        rw [List.append_nil] at htext
        rw [htext]
        exact Scan.EndsAlike.refl _
      · have hpos := List.length_pos_iff.mpr hempty
        intro ending hrun hleft
        rw [scanLevel_skip hskipped] at hrun ⊢
        have hle := left_le_of_scanLevel hrun
        rw [hleft] at hle
        obtain ⟨more, rfl, hrest⟩ := exists_of_append_eq_append htext hle
        have hlength := congrArg List.length hrest
        rw [List.length_cons, List.length_append] at hlength
        rw [scanLevel_skip hskipped]
        rw [scanLevel_cons hc] at hrun ⊢
        obtain ⟨move, hmove, hrun⟩ := Scan.exists_of_bind hrun
        have hmove : nextMove setup level { cur with pos := cur.pos + byteLength skipped }
            (c :: rest) = .ok move := hmove
        rw [hmove]
        change scanLevel _ _ _ more = ⟨(scanMove _ _ _ _ _ move).tokens, _⟩
        by_cases hfinish : move = .finish
        · subst hfinish
          have hall : more = [] := by
            rw [(endLevel_eq_ok hrun).2] at hleft
            exact List.eq_nil_of_length_eq_zero (by omega)
          subst hall
          rw [scanLevel_nil (finish_mem_candidates hmove)]
          exact endLevel_endsAlike (rest.length + 1) ending hrun (endLevel_eq_ok hrun).2
        · have hreach := left_le_of_scanMove hfinish hrun
          rw [hleft, List.length_drop] at hreach
          cases more with
          | nil =>
              rw [List.length_nil] at hlength
              omega
          | cons d more =>
              rw [List.cons_append] at hrest
              obtain ⟨rfl, rfl⟩ := List.cons.inj hrest
              have hreach : move.reach (c :: (more ++ left)) ≤ more.length := by
                rw [List.length_append] at hreach
                omega
              have hextent : move.extent ≤ (c :: more).length :=
                Nat.le_trans (move.extent_le_reach _) (Nat.succ_le_succ hreach)
              have hcut := cut_of_nextMove hscanner hmove hfinish ⟨left, rfl⟩ hextent
                (head?_ne_equals hscanner hmove hrun)
              rw [scanLevel_cons hc, nextMove_cut hscanner hcut hmove hextent]
              exact scanMove_endsAlike ih hfinish hreach ending hrun hleft

end Levels

-- What a formula leaves of a text has no part in its tokens.
theorem tokenize_cut {setup : Setup} (hscanner : setup.scanner = scanNumber)
    {maxTokens : Option Nat} {text : List Char} {tokenized : Tokenized}
    (h : tokenize setup maxTokens text = .ok tokenized) :
    ∃ cut left, text = cut ++ left ∧ tokenized.stop = byteLength cut ∧
      tokenize setup maxTokens cut = .ok tokenized := by
  obtain ⟨ending, hrun, rfl⟩ := scanText_of_tokenize h
  rw [scanText_eq] at hrun
  obtain ⟨cut, left, rfl, hleft, hstop⟩ := scanLevel_splits hrun
  refine ⟨cut, left, rfl, hstop.trans (Nat.zero_add _), ?_⟩
  have hsame : scanText setup cut =
      ⟨(scanText setup (cut ++ left)).tokens, .ok { ending with left := 0 }⟩ := by
    rw [scanText_eq, scanText_eq]
    exact scanLevel_cut hscanner _ _ cut left rfl ending hrun hleft.symm
  simp only [tokenize_eq, hsame, Scan.limit] at h ⊢
  split at h
  · cases h
  · rfl

end FormulaCode
