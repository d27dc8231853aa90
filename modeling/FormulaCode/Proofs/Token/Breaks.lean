import FormulaCode.Proofs.Token.Cut
import FormulaCode.Proofs.Token.Lexemes
import FormulaCode.Proofs.Token.Parentheses

namespace FormulaCode

theorem isNumeralChar_of_isSkipped {c : Char} (h : isSkipped c = true) : isNumeralChar c = false := by
  have hlow : c.toNat ≤ 32 := of_decide_eq_true h
  have hrange : ∀ low high : Char, 32 < low.toNat → (decide (low ≤ c) && decide (c ≤ high)) = false := by
    intro low high hlow'
    have hnot : ¬low ≤ c := by
      intro hle
      have hnat : low.toNat ≤ c.toNat := hle
      omega
    simp [hnot]
  have hdigit : c.isDigit = false := hrange '0' '9' (by decide)
  have hmarks : ∀ mark ∈ ['x', '.', '+', '-'], c ≠ mark := by
    intro mark hmark
    have hall : ['x', '.', '+', '-'].all (fun mark => !isSkipped mark) = true := by decide
    exact ne_of_class h (by simpa using List.all_eq_true.mp hall mark hmark)
  simp [isNumeralChar, isHexDigit, hdigit, hrange 'a' 'f' (by decide), hrange 'A' 'F' (by decide),
    hmarks 'x', hmarks '.', hmarks '+', hmarks '-']

theorem isQuote_of_isSkipped {c : Char} (h : isSkipped c = true) : isQuote c = false :=
  isQuote_of_class h (by decide) (by decide)

-- The next character, if there is one, is skipped between tokens.
def IsBroken (more : List Char) : Prop :=
  ∀ c ∈ more.head?, isSkipped c = true

theorem IsBroken.of_class {more : List Char} (h : IsBroken more) {p : Char → Bool}
    (hp : ∀ {c}, isSkipped c = true → p c = false) : ∀ c ∈ more.head?, p c = false :=
  fun c hc => hp (h c hc)

theorem isBroken_append {gap : List Char} (hgap : ∀ c ∈ gap, isSkipped c = true) (hne : gap ≠ [])
    (rest : List Char) : IsBroken (gap ++ rest) := by
  obtain ⟨c, gap, rfl⟩ := List.exists_cons_of_ne_nil hne
  rintro _ ⟨⟩
  exact hgap c List.mem_cons_self

-- A table whose spellings have no characters that are skipped.
def IsUnbroken (table : List (List Char × α)) : Prop :=
  (table.all fun entry => entry.1.all fun c => !isSkipped c) = true

theorem isUnbroken_unary : IsUnbroken Operator.unarySpellings := by
  unfold IsUnbroken
  decide

theorem isUnbroken_binary : IsUnbroken Operator.binarySpellings := by
  unfold IsUnbroken
  decide

theorem isUnbroken_assignment : IsUnbroken Assignment.spellings := by
  unfold IsUnbroken
  decide

section Append

variable {text more : List Char} (hmore : IsBroken more)

include hmore

-- A spelling goes on over no character that is skipped.
theorem isPrefixOf_append {spelling : List Char} (hspelling : ∀ c ∈ spelling, isSkipped c = false) :
    spelling.isPrefixOf (text ++ more) = spelling.isPrefixOf text := by
  induction spelling generalizing text with
  | nil => cases text <;> rfl
  | cons c spelling ih =>
      obtain ⟨hc, hspelling⟩ := List.forall_mem_cons.mp hspelling
      cases text with
      | cons d text => simp only [List.cons_append, List.isPrefixOf, ih hspelling]
      | nil =>
          cases more with
          | nil => rfl
          | cons d more =>
              have hne : c ≠ d := (ne_of_class (hmore d rfl) hc).symm
              simp only [List.nil_append, List.isPrefixOf, beq_false_of_ne hne, Bool.false_and]

theorem pair_append (c d : Char) (hc : isSkipped c = false) (hd : isSkipped d = false) :
    [c, d].isPrefixOf (text ++ more) = [c, d].isPrefixOf text :=
  isPrefixOf_append hmore
    (List.forall_mem_cons.mpr ⟨hc, List.forall_mem_singleton.mpr hd⟩)

-- A spelling of letters is a whole word in the one text if it is in the other.
theorem fits_append {spelling : List Char} (hspelling : ∀ c ∈ spelling, isSkipped c = false) :
    (spelling.isPrefixOf (text ++ more) && !(startsWithLetter spelling &&
      ((text ++ more).drop spelling.length).head?.any isIdentChar)) =
    (spelling.isPrefixOf text && !(startsWithLetter spelling &&
      (text.drop spelling.length).head?.any isIdentChar)) := by
  rw [isPrefixOf_append hmore hspelling]
  cases hfits : spelling.isPrefixOf text with
  | false => rfl
  | true =>
      obtain ⟨after, rfl⟩ := List.isPrefixOf_iff_prefix.mp hfits
      have hnext : (after ++ more).head?.any isIdentChar = after.head?.any isIdentChar := by
        cases after with
        | cons c after => rfl
        | nil =>
            cases more with
            | nil => rfl
            | cons c more => exact isIdentChar_of_isSkipped (hmore c rfl)
      rw [List.append_assoc, List.drop_left, List.drop_left, hnext]

theorem spelled?_append {table : List (List Char × α)} (htable : IsUnbroken table) :
    spelled? table (text ++ more) = spelled? table text := by
  unfold spelled?
  induction table with
  | nil => rfl
  | cons entry table ih =>
      obtain ⟨hentry, hrest⟩ := (Bool.and_eq_true _ _).mp htable
      have hspelling : ∀ c ∈ entry.1, isSkipped c = false := by
        intro c hc
        simpa using List.all_eq_true.mp hentry c hc
      simp only [List.find?_cons, fits_append hmore hspelling, ih hrest]

theorem assignment?_append : assignment? (text ++ more) = assignment? text := by
  unfold assignment?
  rw [pair_append hmore '=' '=' (by decide) (by decide), spelled?_append hmore isUnbroken_assignment]

variable (hne : text ≠ [])

include hne

omit hmore in
theorem head?_append_of_ne_nil : (text ++ more).head? = text.head? :=
  (head?_cut (List.prefix_append text more) hne).symm

theorem word?_append_eq : word? (text ++ more) = word? text := by
  cases hword : word? text with
  | some word => exact word?_append hword (hmore.of_class isIdentChar_of_isSkipped)
  | none =>
      have hletter : startsWithLetter text = false := by
        simpa [word?] using hword
      have hletter' : startsWithLetter (text ++ more) = false := by
        rw [startsWithLetter, head?_append_of_ne_nil hne]
        exact hletter
      rw [word?, hletter']
      rfl

theorem scan_absent_append (h : Literal.scan text = .absent) :
    Literal.scan (text ++ more) = .absent := by
  match text with
  | [] => exact absurd rfl hne
  | [c] =>
      have hc : isQuote c = false := by
        rw [← Bool.not_eq_true]
        intro hquote
        simp only [Literal.scan, hquote, if_true, Literal.scanQuoted] at h
        split at h <;> cases h
      cases more with
      | nil => exact h
      | cons d more => simp [Literal.scan, hc, isQuote_of_isSkipped (hmore d rfl)]
  | c :: d :: rest =>
      have hquoted : ∀ escapes marked quote rest,
          Literal.scanQuoted escapes marked quote rest ≠ .absent := by
        intro escapes marked quote rest
        simp only [Literal.scanQuoted]
        split <;> simp
      simp only [Literal.scan, List.cons_append] at h ⊢
      grind

variable {setup : Setup} {level : Level} {cur : Cursor} (hscanner : setup.scanner = scanNumber)

include hscanner

-- What begins with a skipped character has no part in what is found before it.
theorem recognise_append {kind : TokenKind} {found : Option Move}
    (h : recognise setup level cur text kind = .ok found) :
    recognise setup level cur (text ++ more) kind = .ok found := by
  rw [← h]
  have hhead : (text ++ more).head? = text.head? := head?_append_of_ne_nil hne
  have hword := word?_append_eq hmore hne
  cases kind with
  | start => rfl
  | stringLiteral =>
      simp only [recognise, Cursor.stringToken] at h ⊢
      cases hscan : Literal.scan text with
      | absent => rw [scan_absent_append hmore hne hscan]
      | unterminated =>
          rw [hscan] at h
          cases h
      | found literal =>
          rw [Literal.scan_append hscan (hmore.of_class isQuote_of_isSkipped)]
  | substOperator =>
      simp only [recognise, hhead, pair_append hmore '%' '=' (by decide) (by decide)]
  | substArgs | subExpr | callArgs | listLiteral | dictLiteral | subscript =>
      simp only [recognise, Cursor.groupMove, hhead]
  | postfixOp | prefixOp =>
      simp only [recognise, Cursor.stepMove, pair_append hmore '-' '-' (by decide) (by decide),
        pair_append hmore '+' '+' (by decide) (by decide)]
  | name => simp only [recognise, Cursor.nameMove, hword]
  | memberName | dollarName => simp only [recognise, hword]
  | unaryOp => simp only [recognise, spelled?_append hmore isUnbroken_unary]
  | binaryOp =>
      simp only [recognise, Cursor.binaryMove, hhead, assignment?_append hmore,
        spelled?_append hmore isUnbroken_binary]
  | ternaryOp => simp only [recognise, Cursor.ternaryMove, hhead]
  | number =>
      simp only [recognise, Cursor.numberMove, hscanner,
        scanNumber_append _ (hmore.of_class isNumeralChar_of_isSkipped)]
      cases hscan : scanNumber text with
      | none => rfl
      | some number =>
          obtain ⟨numeral, hnumeral, rfl⟩ := Option.map_eq_some_iff.mp hscan
          obtain ⟨after, rfl, -⟩ := Numeral.scan_eq_some hnumeral
          simp
  | dollar | dot => simp only [recognise, hhead]
  | assignOp => simp only [recognise, assignment?_append hmore]
  | finish =>
      have hempty : (text ++ more).isEmpty = text.isEmpty := by
        obtain ⟨c, rest, rfl⟩ := List.exists_cons_of_ne_nil hne
        rfl
      simp only [recognise, Cursor.finishMove, hhead, hempty]

theorem nextMove_append {move : Move} (h : nextMove setup level cur text = .ok move) :
    nextMove setup level cur (text ++ more) = .ok move := by
  obtain ⟨before, kind, after, hcandidates, hbefore, hkind⟩ := nextMove_eq_ok_iff.mp h
  apply nextMove_eq before kind after hcandidates
  · intro other hother
    exact recognise_append hmore hne hscanner (hbefore other hother)
  · exact recognise_append hmore hne hscanner hkind

end Append

section Extent

variable {setup : Setup} {level : Level} {cur : Cursor} {c : Char} {rest : List Char}

theorem spelled?_length_le {table : List (List Char × α)} {text : List Char} {entry : List Char × α}
    (h : spelled? table text = some entry) : entry.1.length ≤ text.length := by
  have hfits := List.find?_some h
  simp only [Bool.and_eq_true] at hfits
  exact (List.isPrefixOf_iff_prefix.mp hfits.1).length_le

theorem word?_length_le {text word : List Char} (h : word? text = some word) :
    word.length ≤ text.length := by
  simp only [word?, Option.ite_none_right_eq_some, Option.some.injEq] at h
  rw [← h.2]
  exact (List.takeWhile_prefix isIdentChar).length_le

theorem extent_le_of_token {form : Form} {width : Nat} {move : Move}
    (h : cur.token form width = some move) (hle : width ≤ rest.length + 1) :
    move.extent ≤ rest.length + 1 := by
  cases h
  simp only [Move.extent]
  omega

-- A move takes no more than there is.
theorem extent_le_of_nextMove {move : Move} (h : nextMove setup level cur (c :: rest) = .ok move) :
    move.extent ≤ (c :: rest).length := by
  obtain ⟨kind, -, hkind⟩ := nextMove_eq_ok h
  rw [List.length_cons]
  cases kind with
  | start => cases hkind
  | stringLiteral =>
      simp only [recognise, Cursor.stringToken] at hkind
      split at hkind
      · cases hkind
      · cases hkind
      · rename_i literal hscan
        obtain ⟨lexeme, after, htext, hwidth, -⟩ := Literal.scan_eq_found hscan
        refine extent_le_of_token (Except.ok.inj hkind) ?_
        rw [← List.length_cons (a := c), htext, ← hwidth, List.length_append]
        omega
  | number =>
      obtain ⟨⟨value, width⟩, -, hfound⟩ := Option.bind_eq_some_iff.mp (Except.ok.inj hkind)
      simp only [Option.ite_none_right_eq_some, Bool.and_eq_true, decide_eq_true_eq] at hfound
      exact extent_le_of_token hfound.2 hfound.1.2
  | name =>
      obtain ⟨word, hword, hfound⟩ := Option.bind_eq_some_iff.mp (Except.ok.inj hkind)
      have hle := word?_length_le hword
      rw [List.length_cons] at hle
      simp only at hfound
      split at hfound
      · cases hfound
      · split at hfound <;> cases hfound <;> simp only [Move.extent] <;> omega
  | memberName | dollarName =>
      obtain ⟨word, hword, hfound⟩ := Option.bind_eq_some_iff.mp (Except.ok.inj hkind)
      exact extent_le_of_token hfound (word?_length_le hword)
  | unaryOp =>
      obtain ⟨entry, hentry, hfound⟩ := Option.bind_eq_some_iff.mp (Except.ok.inj hkind)
      exact extent_le_of_token hfound (spelled?_length_le hentry)
  | assignOp =>
      simp only [recognise, Except.ok.injEq, Option.ite_none_right_eq_some] at hkind
      obtain ⟨entry, hentry, hfound⟩ := Option.bind_eq_some_iff.mp hkind.2
      exact extent_le_of_token hfound (spelled?_length_le (spelled?_of_assignment? hentry))
  | postfixOp | prefixOp =>
      simp only [recognise, Cursor.stepMove, Except.ok.injEq] at hkind
      split at hkind
      · rename_i hfits
        exact extent_le_of_token hkind (List.isPrefixOf_iff_prefix.mp hfits).length_le
      · simp only [Option.ite_none_right_eq_some] at hkind
        exact extent_le_of_token hkind.2 (List.isPrefixOf_iff_prefix.mp hkind.1).length_le
  | substOperator | dollar | dot =>
      simp only [recognise, Except.ok.injEq, Option.ite_none_right_eq_some] at hkind
      exact extent_le_of_token hkind.2 (Nat.succ_le_succ (Nat.zero_le _))
  | substArgs | subExpr | callArgs | listLiteral | dictLiteral | subscript =>
      simp only [recognise, Cursor.groupMove, Except.ok.injEq, Option.ite_none_right_eq_some] at hkind
      cases hkind.2
      exact Nat.succ_le_succ (Nat.zero_le _)
  | finish =>
      simp only [recognise, Cursor.finishMove, Except.ok.injEq, Option.ite_none_right_eq_some] at hkind
      cases hkind.2
      exact Nat.zero_le _
  | binaryOp =>
      simp only [recognise, Cursor.binaryMove] at hkind
      split at hkind
      · have hone : move.extent ≤ 1 := by
          simp only [Cursor.comma, Cursor.fail] at hkind
          grind [Cursor.token, Move.extent]
        omega
      · split at hkind
        · cases hkind
        · obtain ⟨entry, hentry, hfound⟩ := Option.bind_eq_some_iff.mp (Except.ok.inj hkind)
          exact extent_le_of_token hfound (spelled?_length_le hentry)
  | ternaryOp =>
      have hone : move.extent ≤ 1 := by
        simp only [recognise, Cursor.ternaryMove, Cursor.question, Cursor.colon, Cursor.fail] at hkind
        grind [Cursor.token, Move.extent]
      omega

end Extent

section Insert

variable {setup : Setup} {level : Level} {cur : Cursor} (hscanner : setup.scanner = scanNumber)
  {before after gap : List Char} (hgap : ∀ c ∈ gap, isSkipped c = true) (hne : gap ≠ [])

include hscanner hgap hne

-- Skipped characters that are put in behind a move leave it as it is.
theorem nextMove_insert {move : Move} (hmove : nextMove setup level cur (before ++ after) = .ok move)
    (hfinish : move ≠ .finish) (hextent : move.extent ≤ before.length) (hpos : before ≠ [])
    (hequals : move.kind = .binaryOp → ((before ++ after).drop move.extent).head? ≠ some '=') :
    nextMove setup level cur (before ++ (gap ++ after)) = .ok move := by
  obtain ⟨c, rest, rfl⟩ := List.exists_cons_of_ne_nil hpos
  rw [List.cons_append] at hmove hequals
  have hcut : Cut setup cur (c :: (rest ++ after)) (c :: rest) :=
    cut_of_nextMove hscanner hmove hfinish ⟨after, rfl⟩ hextent hequals
  have hbefore := nextMove_cut hscanner hcut hmove hextent
  exact nextMove_append (isBroken_append hgap hne after) hpos hscanner hbefore

end Insert

end FormulaCode
