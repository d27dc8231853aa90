import FormulaCode.Token.Move

namespace FormulaCode

theorem ne_of_class {p : Char → Bool} {c d : Char} (hc : p c = true) (hd : p d = false) :
    c ≠ d := by
  intro h
  rw [h, hd] at hc
  cases hc

theorem isQuote_of_class {p : Char → Bool} {c : Char} (hc : p c = true) (hsingle : p '\'' = false)
    (hdouble : p '"' = false) : isQuote c = false := by
  simp [isQuote, ne_of_class hc hsingle, ne_of_class hc hdouble]

-- A character that no search for a round or square bracket takes notice of.
def isQuiet (c : Char) : Bool :=
  !isQuote c && !(['(', ')', '[', ']'].contains c)

theorem isQuiet_of_class {p : Char → Bool} {c : Char} (hc : p c = true)
    (hloud : ['\'', '"', '(', ')', '[', ']'].any p = false) : isQuiet c = true := by
  have hclass : ∀ d ∈ ['\'', '"', '(', ')', '[', ']'], p d = false := by
    simpa only [List.any_eq_false, Bool.not_eq_true] using hloud
  have hquote : isQuote c = false :=
    isQuote_of_class hc (hclass _ (by decide)) (hclass _ (by decide))
  have hne : ∀ d ∈ ['\'', '"', '(', ')', '[', ']'], c ≠ d :=
    fun d hd => ne_of_class hc (hclass d hd)
  simp [isQuiet, hquote, hne '(' (by decide), hne ')' (by decide), hne '[' (by decide),
    hne ']' (by decide)]

theorem isQuiet_of_isIdentChar {c : Char} (h : isIdentChar c = true) : isQuiet c = true :=
  isQuiet_of_class h (by decide)

theorem toNat_of_isDigit {c : Char} (h : c.isDigit = true) : 48 ≤ c.toNat ∧ c.toNat ≤ 57 := by
  obtain ⟨hlow, hhigh⟩ := (Bool.and_eq_true _ _).mp h
  exact ⟨UInt32.le_iff_toNat_le.mp (of_decide_eq_true hlow),
    UInt32.le_iff_toNat_le.mp (of_decide_eq_true hhigh)⟩

theorem toNat_of_isAlpha {c : Char} (h : c.isAlpha = true) :
    (65 ≤ c.toNat ∧ c.toNat ≤ 90) ∨ (97 ≤ c.toNat ∧ c.toNat ≤ 122) := by
  rcases (Bool.or_eq_true _ _).mp h with hupper | hlower
  · obtain ⟨hlow, hhigh⟩ := of_decide_eq_true hupper
    exact Or.inl ⟨UInt32.le_iff_toNat_le.mp hlow, UInt32.le_iff_toNat_le.mp hhigh⟩
  · obtain ⟨hlow, hhigh⟩ := (Bool.and_eq_true _ _).mp hlower
    exact Or.inr ⟨UInt32.le_iff_toNat_le.mp (of_decide_eq_true hlow),
      UInt32.le_iff_toNat_le.mp (of_decide_eq_true hhigh)⟩

theorem isAlpha_of_isDigit {c : Char} (hc : c.isDigit = true) : c.isAlpha = false := by
  by_cases halpha : c.isAlpha = true
  · have hdigit := toNat_of_isDigit hc
    have hletter := toNat_of_isAlpha halpha
    omega
  · simpa using halpha

def Move.kind : Move → TokenKind
  | token form _ _ => form.kind
  | binder _ _ => .name
  | group found => found.kind
  | finish => .finish

-- The first that gives something decides.
theorem findSomeM?_eq_ok_iff {f : α → Except ε (Option β)} {xs : List α} {b : β} :
    xs.findSomeM? f = .ok (some b) ↔ ∃ before x after, xs = before ++ x :: after ∧
      (∀ y ∈ before, f y = .ok none) ∧ f x = .ok (some b) := by
  constructor
  · intro h
    induction xs with
    | nil => cases h
    | cons x rest ih =>
        simp only [List.findSomeM?, bind, Except.bind] at h
        split at h
        · cases h
        · rename_i found hfound
          cases found with
          | some found =>
              cases h
              exact ⟨[], x, rest, rfl, by simp, hfound⟩
          | none =>
              obtain ⟨before, y, after, rfl, hbefore, hy⟩ := ih h
              refine ⟨x :: before, y, after, rfl, ?_, hy⟩
              intro z hz
              rcases List.mem_cons.mp hz with rfl | hz
              · exact hfound
              · exact hbefore z hz
  · rintro ⟨before, x, after, rfl, hbefore, hx⟩
    induction before with
    | nil => simp [List.findSomeM?, hx, bind, Except.bind, pure, Except.pure]
    | cons y before ih =>
        have hy : f y = .ok none := hbefore y List.mem_cons_self
        have hmore : (before ++ x :: after).findSomeM? f = .ok (some b) :=
          ih fun z hz => hbefore z (List.mem_cons_of_mem y hz)
        simp [List.findSomeM?, hy, bind, Except.bind, hmore]

theorem mem_of_spelled? {table : List (List Char × α)} {text : List Char} {entry : List Char × α}
    (h : spelled? table text = some entry) : entry ∈ table :=
  List.mem_of_find?_eq_some h

theorem word?_eq_some {c : Char} {rest word : List Char} (h : word? (c :: rest) = some word) :
    c.isAlpha = true ∧ word = c :: rest.takeWhile isIdentChar ∧
      c :: rest.take (word.length - 1) = word := by
  simp only [word?, Option.ite_none_right_eq_some, Option.some.injEq] at h
  obtain ⟨halpha, rfl⟩ := h
  have halpha : c.isAlpha = true := halpha
  have hident : isIdentChar c = true := by simp [isIdentChar, Char.isAlphanum, halpha]
  rw [List.takeWhile_cons_of_pos hident]
  refine ⟨halpha, rfl, ?_⟩
  rw [List.length_cons, Nat.add_sub_cancel]
  exact congrArg (c :: ·) (List.prefix_iff_eq_take.mp (List.takeWhile_prefix isIdentChar)).symm

section Recognise

variable {setup : Setup} {level : Level} {cur : Cursor} {text : List Char} {kind : TokenKind}

theorem nextMove_eq_ok_iff {move : Move} :
    nextMove setup level cur text = .ok move ↔ ∃ before kind after,
      cur.candidates = before ++ kind :: after ∧
      (∀ other ∈ before, recognise setup level cur text other = .ok none) ∧
      recognise setup level cur text kind = .ok (some move) := by
  rw [← findSomeM?_eq_ok_iff]
  simp only [nextMove, bind, Except.bind]
  split
  · rename_i hfound
    simp [hfound]
  · rename_i found hfound
    cases found with
    | some found => simp [hfound]
    | none => simp [hfound, Cursor.fail]

theorem nextMove_eq (before : List TokenKind) (kind : TokenKind) (after : List TokenKind)
    {move : Move}
    (hcandidates : cur.candidates = before ++ kind :: after)
    (hbefore : ∀ other ∈ before, recognise setup level cur text other = .ok none)
    (hkind : recognise setup level cur text kind = .ok (some move)) :
    nextMove setup level cur text = .ok move :=
  nextMove_eq_ok_iff.mpr ⟨before, kind, after, hcandidates, hbefore, hkind⟩

theorem nextMove_eq_ok {move : Move} (h : nextMove setup level cur text = .ok move) :
    ∃ kind ∈ cur.candidates, recognise setup level cur text kind = .ok (some move) := by
  obtain ⟨before, kind, after, hcandidates, -, hkind⟩ := nextMove_eq_ok_iff.mp h
  exact ⟨kind, by simp [hcandidates], hkind⟩

-- What is found is of the kind that was looked for.
theorem kind_of_recognise {move : Move} (h : recognise setup level cur text kind = .ok (some move)) :
    move.kind = kind := by
  cases kind with
  | start => cases h
  | stringLiteral =>
      simp only [recognise, Cursor.stringToken] at h
      split at h <;> cases h
      rfl
  | number =>
      obtain ⟨⟨value, width⟩, -, h⟩ := Option.bind_eq_some_iff.mp (Except.ok.inj h)
      simp only [Option.ite_none_right_eq_some] at h
      cases h.2
      rfl
  | name =>
      obtain ⟨word, -, h⟩ := Option.bind_eq_some_iff.mp (Except.ok.inj h)
      simp only at h
      split at h
      · cases h
      · split at h <;> cases h <;> rfl
  | substArgs | subExpr | callArgs | listLiteral | dictLiteral | subscript =>
      simp only [recognise, Cursor.groupMove, Except.ok.injEq, Option.ite_none_right_eq_some] at h
      cases h.2
      rfl
  | finish | substOperator | dollar | dot =>
      simp only [recognise, Cursor.finishMove, Except.ok.injEq, Option.ite_none_right_eq_some] at h
      cases h.2
      rfl
  | postfixOp | prefixOp =>
      simp only [recognise, Cursor.stepMove, Except.ok.injEq] at h
      split at h
      · cases h
        rfl
      · simp only [Option.ite_none_right_eq_some] at h
        cases h.2
        rfl
  | memberName | dollarName | unaryOp =>
      obtain ⟨word, -, h⟩ := Option.bind_eq_some_iff.mp (Except.ok.inj h)
      cases h
      rfl
  | assignOp =>
      simp only [recognise, Except.ok.injEq, Option.ite_none_right_eq_some] at h
      obtain ⟨word, -, h⟩ := Option.bind_eq_some_iff.mp h.2
      cases h
      rfl
  | binaryOp =>
      simp only [recognise, Cursor.binaryMove] at h
      split at h
      · simp only [Cursor.comma, Cursor.fail] at h
        split at h
        · cases h
          rfl
        · split at h <;> cases h <;> rfl
      · split at h
        · cases h
        · obtain ⟨word, -, h⟩ := Option.bind_eq_some_iff.mp (Except.ok.inj h)
          cases h
          rfl
  | ternaryOp =>
      simp only [recognise, Cursor.ternaryMove] at h
      split at h
      · cases h
        rfl
      · split at h
        · simp only [Cursor.colon, Cursor.fail] at h
          split at h
          · cases h
            rfl
          · cases h
          · cases h
            rfl
          · split at h <;> cases h
        · cases h

end Recognise

theorem plain_of_recognise {setup : Setup} {level : Level} {cur next : Cursor} {text : List Char}
    {kind : TokenKind} {form : Form} {extra : Nat} (hkind : kind ≠ .name)
    (h : recognise setup level cur text kind = .ok (some (.token form extra next))) :
    next.callee = .plain := by
  cases kind with
  | name => exact absurd rfl hkind
  | _ =>
      simp only [recognise, Cursor.stringToken, Cursor.groupMove, Cursor.stepMove,
        Cursor.binaryMove, Cursor.comma, Cursor.ternaryMove, Cursor.question, Cursor.colon,
        Cursor.numberMove, Cursor.finishMove, Cursor.fail] at h
      grind [Cursor.token, Option.bind_eq_some_iff]

-- What a character rules out.
section Absent

variable {setup : Setup} {level : Level} {cur : Cursor} {c : Char} {rest : List Char}

theorem recognise_stringLiteral_none (hc : isQuote c = false)
    (hrest : c.isAlpha = true → ∀ d ∈ rest.head?, isQuote d = false) :
    recognise setup level cur (c :: rest) .stringLiteral = .ok none := by
  have habsent : Literal.scan (c :: rest) = .absent := by
    cases rest with
    | nil => simp [Literal.scan, hc]
    | cons d more =>
        by_cases halpha : c.isAlpha = true
        · have hd : isQuote d = false := hrest halpha d rfl
          simp [Literal.scan, hc, hd]
        · have hletters : c ≠ 'r' ∧ c ≠ 'R' ∧ c ≠ 'e' ∧ c ≠ 'E' := by
            refine ⟨?_, ?_, ?_, ?_⟩ <;> rintro rfl <;> exact absurd (by decide) halpha
          simp [Literal.scan, hc, hletters]
  simp [recognise, Cursor.stringToken, habsent]

theorem groupMove_eq_none {group : Group} (hc : c ≠ group.opener) :
    Cursor.groupMove group (c :: rest) = none := by
  simp [Cursor.groupMove, hc]

theorem stepMove_eq_none {minus plus : Form} (hminus : c ≠ '-') (hplus : c ≠ '+') :
    cur.stepMove minus plus (c :: rest) = none := by
  simp [Cursor.stepMove, hminus.symm, hplus.symm]

theorem recognise_name_none (hc : c.isAlpha = false) :
    recognise setup level cur (c :: rest) .name = .ok none := by
  simp [recognise, Cursor.nameMove, word?, startsWithLetter, hc]

theorem spelled?_eq_none {p : Char → Bool} {table : List (List Char × α)} (hc : p c = true)
    (htable : ∀ entry ∈ table, entry.1.head?.any (fun d => !p d) = true) :
    spelled? table (c :: rest) = none := by
  rw [spelled?, List.find?_eq_none]
  rintro ⟨spelling, meaning⟩ hentry
  have hhead := htable _ hentry
  cases spelling with
  | nil => simp at hhead
  | cons d more =>
      have hd : p d = false := by simpa using hhead
      simp [(ne_of_class hc hd).symm]

theorem recognise_unaryOp_none {p : Char → Bool} (hc : p c = true)
    (htable : ∀ entry ∈ Operator.unarySpellings, entry.1.head?.any (fun d => !p d) = true) :
    recognise setup level cur (c :: rest) .unaryOp = .ok none := by
  have hnone : spelled? Operator.unarySpellings (c :: rest) = none := spelled?_eq_none hc htable
  rw [recognise, hnone]
  rfl

theorem binaryMove_eq_none (hcomma : c ≠ ',')
    (hspelled : spelled? Operator.binarySpellings (c :: rest) = none) :
    cur.binaryMove setup (c :: rest) = .ok none := by
  simp [Cursor.binaryMove, hcomma, hspelled]

end Absent

def Cursor.shift (offset : Nat) (cur : Cursor) : Cursor :=
  { cur with pos := cur.pos + offset }

theorem Cursor.candidates_shift (offset : Nat) (cur : Cursor) :
    (cur.shift offset).candidates = cur.candidates := rfl

def Move.shift (offset : Nat) : Move → Move
  | token form extra next => token form extra (next.shift offset)
  | move => move

-- The same level inside some more groups.
def Level.deepen (extra : Nat) (level : Level) : Level :=
  { level with depth := extra + level.depth }

section Moves

variable {setup : Setup} {level : Level} {cur : Cursor} {text : List Char} {limit : Option Nat}
  {offset extra : Nat}

theorem colon_shift :
    (cur.shift offset).colon (level.deepen extra) =
      ((cur.colon level).map (Option.map (Move.shift offset))).mapError
        (LexError.rebase · offset) := by
  obtain ⟨pos, state, ternaries, separators, callee⟩ := cur
  obtain ⟨top, stopAtColon, depth⟩ := level
  cases ternaries with
  | succ ternaries => rfl
  | zero =>
      cases separators with
      | terminate | sequence | items count => cases stopAtColon <;> rfl
      | pairs count inKey => cases inKey <;> rfl

theorem comma_shift :
    (cur.shift offset).comma =
      (cur.comma.map (Option.map (Move.shift offset))).mapError (LexError.rebase · offset) := by
  obtain ⟨pos, state, ternaries, separators, callee⟩ := cur
  cases ternaries with
  | succ ternaries => rfl
  | zero =>
      cases separators with
      | terminate | sequence | items count => rfl
      | pairs count inKey => cases inKey <;> rfl

theorem nameMove_shift :
    (cur.shift offset).nameMove text = (cur.nameMove text).map (Move.shift offset) := by
  simp only [Cursor.nameMove]
  cases word? text with
  | none => rfl
  | some word =>
      change ite _ _ _ = Option.map _ (ite _ _ _)
      split
      · rfl
      · split <;> rfl

theorem binaryMove_shift :
    (cur.shift offset).binaryMove { setup with maxDepth := limit } text =
      ((cur.binaryMove setup text).map (Option.map (Move.shift offset))).mapError
        (LexError.rebase · offset) := by
  have hstate : (cur.shift offset).state = cur.state := rfl
  simp only [Cursor.binaryMove, hstate]
  by_cases hcomma : text.head? = some ','
  · rw [if_pos hcomma, if_pos hcomma]
    exact comma_shift
  · rw [if_neg hcomma, if_neg hcomma]
    split
    · rfl
    · cases spelled? Operator.binarySpellings text <;> rfl

-- Where a text stands is not looked at, nor how many groups it stands in.
theorem recognise_shift (kind : TokenKind) :
    recognise { setup with maxDepth := limit } (level.deepen extra) (cur.shift offset) text kind =
      ((recognise setup level cur text kind).map (Option.map (Move.shift offset))).mapError
        (LexError.rebase · offset) := by
  cases kind with
  | start => rfl
  | stringLiteral =>
      simp only [recognise, Cursor.stringToken]
      split <;> rfl
  | substOperator | dot | dollar =>
      simp only [recognise]
      split <;> rfl
  | substArgs | subExpr | callArgs | listLiteral | dictLiteral | subscript =>
      simp only [recognise, Cursor.groupMove]
      split <;> rfl
  | postfixOp | prefixOp =>
      simp only [recognise, Cursor.stepMove]
      split
      · rfl
      · split <;> rfl
  | name => exact congrArg Except.ok nameMove_shift
  | memberName | dollarName =>
      simp only [recognise]
      cases word? text <;> rfl
  | unaryOp =>
      simp only [recognise]
      cases spelled? Operator.unarySpellings text <;> rfl
  | assignOp =>
      simp only [recognise]
      split
      · cases assignment? text <;> rfl
      · rfl
  | ternaryOp =>
      simp only [recognise, Cursor.ternaryMove]
      split
      · rfl
      · split
        · exact colon_shift
        · rfl
  | number =>
      simp only [recognise, Cursor.numberMove]
      cases setup.scanner text with
      | none => rfl
      | some found =>
          change Except.ok (ite _ _ _) = Except.ok (Option.map _ (ite _ _ _))
          split <;> rfl
  | finish =>
      change Except.ok (cur.finishMove level text) = Except.ok (Option.map _ _)
      unfold Cursor.finishMove
      split <;> rfl
  | binaryOp => exact binaryMove_shift

theorem findSomeM?_map {f : α → Except ε (Option β)} {g : α → Except ε' (Option γ)}
    {answer : β → γ} {failure : ε → ε'}
    (h : ∀ x, g x = ((f x).map (Option.map answer)).mapError failure) (xs : List α) :
    xs.findSomeM? g = ((xs.findSomeM? f).map (Option.map answer)).mapError failure := by
  induction xs with
  | nil => rfl
  | cons x xs ih =>
      simp only [List.findSomeM?, h x]
      match f x with
      | .error e => rfl
      | .ok none => exact ih
      | .ok (some b) => rfl

theorem nextMove_shift :
    nextMove { setup with maxDepth := limit } (level.deepen extra) (cur.shift offset) text =
      ((nextMove setup level cur text).map (Move.shift offset)).mapError
        (LexError.rebase · offset) := by
  unfold nextMove
  rw [findSomeM?_map recognise_shift, Cursor.candidates_shift]
  match cur.candidates.findSomeM? (recognise setup level cur text) with
  | .error e => rfl
  | .ok none => rfl
  | .ok (some move) => rfl

end Moves

end FormulaCode
