import FormulaCode.Proofs.Quotes
import FormulaCode.Proofs.Number
import FormulaCode.Proofs.Token.Success

namespace FormulaCode

theorem toNat_of_isIdentChar {c : Char} (h : isIdentChar c = true) :
    (48 ≤ c.toNat ∧ c.toNat ≤ 57) ∨ (65 ≤ c.toNat ∧ c.toNat ≤ 90) ∨ c.toNat = 95 ∨
      (97 ≤ c.toNat ∧ c.toNat ≤ 122) := by
  simp only [isIdentChar, Char.isAlphanum, Bool.or_eq_true, decide_eq_true_eq] at h
  rcases h with (halpha | hdigit) | rfl
  · have hletter := toNat_of_isAlpha halpha
    omega
  · exact Or.inl (toNat_of_isDigit hdigit)
  · exact Or.inr (Or.inr (Or.inl rfl))

theorem isIdentChar_of_isSkipped {c : Char} (h : isSkipped c = true) : isIdentChar c = false := by
  rw [← Bool.not_eq_true]
  intro hident
  have hword := toNat_of_isIdentChar hident
  have hlow : c.toNat ≤ 32 := of_decide_eq_true h
  omega

theorem isIdentChar_of_isBlank {c : Char} (h : isBlank c = true) : isIdentChar c = false := by
  rw [← Bool.not_eq_true]
  intro hident
  have hword := toNat_of_isIdentChar hident
  simp [isBlank] at h
  omega

theorem quiet_of_takeWhile {p : Char → Bool} (text : List Char)
    (hloud : ['\'', '"', '(', ')', '[', ']'].any p = false) :
    ∀ c ∈ text.takeWhile p, isQuiet c = true :=
  fun c hc => isQuiet_of_class (List.all_eq_true.mp List.all_takeWhile c hc) hloud

-- A number is spelled with letters, digits, points and signs.
theorem Numeral.quiet_of_scan {text : List Char} {numeral : Numeral}
    (h : scan text = some numeral) :
    ∀ c ∈ numeral.spelling, isQuiet c = true :=
  fun c hc => isQuiet_of_class (chars_of_scan h c hc) (by decide)

-- How the search must have come to a place where a literal may begin: the quote there opens no raw
-- literal, and a mark in front of the quote begins a word.
def Trail.Suits (trail : Trail) (state : TokenKind) (text : List Char) : Prop :=
  .stringLiteral ∈ state.successors →
    trail.raw = false ∧ (trail.inWord = true → ∀ c ∈ text.head?, isIdentChar c = false)

theorem Trail.suits_start (state : TokenKind) (text : List Char) : Trail.start.Suits state text :=
  fun _ => ⟨rfl, by rintro ⟨⟩⟩

-- The search passes over a token without a stop, and suits what may follow it.
def Inert (lexeme : List Char) (kind : TokenKind) (after : List Char) : Prop :=
  (∀ c ∈ lexeme, isQuiet c = true) ∧
    ∀ trail, (lexeme.foldl Trail.push trail).Suits kind after

namespace Inert

theorem mark {c : Char} (hquiet : isQuiet c = true) (hident : isIdentChar c = false)
    (kind : TokenKind) (after : List Char) : Inert [c] kind after := by
  refine ⟨List.forall_mem_singleton.mpr hquiet, fun trail => ?_⟩
  rw [List.foldl_cons, List.foldl_nil, Trail.push_eq_start hident]
  exact Trail.suits_start kind after

theorem of_not_mem {lexeme : List Char} {kind : TokenKind}
    (hkind : .stringLiteral ∉ kind.successors) (hquiet : ∀ c ∈ lexeme, isQuiet c = true)
    (after : List Char) : Inert lexeme kind after :=
  ⟨hquiet, fun _ hmem => (hkind hmem).elim⟩

end Inert

-- What is spelled in a table is inert, where a letter at its end belongs to a whole word.
def IsInert (table : List (List Char × α)) : Prop :=
  ∀ entry ∈ table, entry.1 ≠ [] ∧ entry.1.all isQuiet = true ∧ ∀ inWord raw,
    (entry.1.foldl Trail.push ⟨inWord, raw⟩).raw = false ∧
    ((entry.1.foldl Trail.push ⟨inWord, raw⟩).inWord = true → startsWithLetter entry.1 = true)

theorem isInert_unary : IsInert Operator.unarySpellings := by
  unfold IsInert
  decide

theorem isInert_binary : IsInert Operator.binarySpellings := by
  unfold IsInert
  decide

theorem isInert_assignment : IsInert Assignment.spellings := by
  unfold IsInert
  decide

theorem IsInert.inert {table : List (List Char × α)} (htable : IsInert table) {c : Char}
    {rest : List Char} {entry : List Char × α} (h : spelled? table (c :: rest) = some entry)
    (kind : TokenKind) :
    Inert (c :: rest.take (entry.1.length - 1)) kind (rest.drop (entry.1.length - 1)) := by
  obtain ⟨spelling, meaning⟩ := entry
  obtain ⟨hne, hquiet, htrail⟩ := htable _ (mem_of_spelled? h)
  have hfits := List.find?_some h
  simp only [Bool.and_eq_true, Bool.not_eq_true'] at hfits
  obtain ⟨hbegins, hends⟩ := hfits
  obtain ⟨after, htext⟩ := List.isPrefixOf_iff_prefix.mp hbegins
  rw [← htext, List.drop_left] at hends
  cases spelling with
  | nil => exact absurd rfl hne
  | cons d tail =>
      rw [List.cons_append] at htext
      obtain ⟨rfl, rfl⟩ := List.cons.inj htext
      simp only [List.length_cons, Nat.add_sub_cancel, List.take_left, List.drop_left]
      refine ⟨List.all_eq_true.mp hquiet, fun trail _ => ?_⟩
      obtain ⟨hraw, hword⟩ := htrail trail.inWord trail.raw
      refine ⟨hraw, fun hinWord next hnext => ?_⟩
      rw [hword hinWord, Bool.true_and, Option.mem_def.mp hnext] at hends
      exact hends

section Tokens

variable {setup : Setup} {level : Level} {cur : Cursor} {c : Char} {rest : List Char}

theorem word_quiet {word : List Char} (h : word? (c :: rest) = some word) :
    ∀ d ∈ c :: rest.take (word.length - 1), isQuiet d = true := by
  obtain ⟨halpha, hword, htake⟩ := word?_eq_some h
  rw [htake, hword]
  refine List.forall_mem_cons.mpr ⟨isQuiet_of_class halpha (by decide), ?_⟩
  exact quiet_of_takeWhile rest (by decide)

theorem number_quiet (hscanner : setup.scanner = scanNumber) {form : Form} {extra : Nat}
    {next : Cursor} (h : cur.numberMove setup (c :: rest) = some (.token form extra next)) :
    ∀ d ∈ c :: rest.take extra, isQuiet d = true := by
  obtain ⟨⟨value, width⟩, hscan, h⟩ := Option.bind_eq_some_iff.mp h
  simp only [Option.ite_none_right_eq_some, Bool.and_eq_true, decide_eq_true_eq] at h
  obtain ⟨⟨hpos, -⟩, ⟨⟩⟩ := h
  rw [hscanner] at hscan
  obtain ⟨numeral, hnumeral, ⟨⟩⟩ := Option.map_eq_some_iff.mp hscan
  obtain ⟨after, htext, -⟩ := Numeral.scan_eq_some hnumeral
  have hlexeme : c :: rest.take (numeral.spelling.length - 1) = numeral.spelling := by
    have htake : (c :: rest).take numeral.spelling.length = numeral.spelling := by
      rw [htext, List.take_left]
    obtain ⟨width, hwidth⟩ := Nat.exists_eq_succ_of_ne_zero (Nat.ne_of_gt hpos)
    rw [hwidth, List.take_succ_cons] at htake
    rw [hwidth, Nat.succ_sub_one, htake]
  rw [hlexeme]
  exact Numeral.quiet_of_scan hnumeral

theorem step_quiet {minus plus form : Form} {extra : Nat} {next : Cursor}
    (h : cur.stepMove minus plus (c :: rest) = some (.token form extra next)) :
    ∀ d ∈ c :: rest.take extra, isQuiet d = true := by
  have hsign : ∀ sign, [sign, sign].isPrefixOf (c :: rest) = true →
      c :: rest.take 1 = [sign, sign] := by
    intro sign hsign
    obtain ⟨after, htext⟩ := List.isPrefixOf_iff_prefix.mp hsign
    cases htext
    rfl
  unfold Cursor.stepMove at h
  split at h
  · rename_i hminus
    cases h
    rw [hsign '-' hminus]
    exact List.all_eq_true.mp (by decide)
  · simp only [Option.ite_none_right_eq_some] at h
    obtain ⟨hplus, ⟨⟩⟩ := h
    rw [hsign '+' hplus]
    exact List.all_eq_true.mp (by decide)

-- Quotes and brackets stand in literals and around groups, and nowhere else.
theorem inert_of_token (hscanner : setup.scanner = scanNumber) {form : Form} {extra : Nat}
    {next : Cursor} (h : nextMove setup level cur (c :: rest) = .ok (.token form extra next))
    (hform : form.kind ≠ .stringLiteral) :
    Inert (c :: rest.take extra) form.kind (rest.drop extra) := by
  obtain ⟨kind, -, hfound⟩ := nextMove_eq_ok h
  have hkind : form.kind = kind := kind_of_recognise hfound
  rw [hkind] at hform ⊢
  cases kind with
  | start => cases hfound
  | stringLiteral => exact absurd rfl hform
  | substArgs | subExpr | callArgs | listLiteral | dictLiteral | subscript =>
      simp [recognise, Cursor.groupMove] at hfound
  | finish => simp [recognise, Cursor.finishMove] at hfound
  | substOperator =>
      simp only [recognise, List.head?_cons, Except.ok.injEq, Option.ite_none_right_eq_some,
        Bool.and_eq_true, decide_eq_true_eq, Option.some.injEq] at hfound
      obtain ⟨⟨rfl, -⟩, ⟨⟩⟩ := hfound
      exact .mark (by decide) (by decide) _ _
  | dollar =>
      simp only [recognise, List.head?_cons, Except.ok.injEq, Option.ite_none_right_eq_some,
        Bool.and_eq_true, decide_eq_true_eq, Option.some.injEq] at hfound
      obtain ⟨⟨-, rfl⟩, ⟨⟩⟩ := hfound
      exact .mark (by decide) (by decide) _ _
  | dot =>
      simp only [recognise, List.head?_cons, Except.ok.injEq, Option.ite_none_right_eq_some,
        Option.some.injEq] at hfound
      obtain ⟨rfl, ⟨⟩⟩ := hfound
      exact .mark (by decide) (by decide) _ _
  | postfixOp | prefixOp =>
      exact .of_not_mem (by decide) (step_quiet (Except.ok.inj hfound)) _
  | name =>
      obtain ⟨word, hword, hmove⟩ := Option.bind_eq_some_iff.mp (Except.ok.inj hfound)
      simp only at hmove
      split at hmove
      · cases hmove
      · split at hmove
        · cases hmove
        · cases hmove
          exact .of_not_mem (by decide) (word_quiet hword) _
  | memberName | dollarName =>
      obtain ⟨word, hword, ⟨⟩⟩ := Option.bind_eq_some_iff.mp (Except.ok.inj hfound)
      exact .of_not_mem (by decide) (word_quiet hword) _
  | number => exact .of_not_mem (by decide) (number_quiet hscanner (Except.ok.inj hfound)) _
  | unaryOp =>
      obtain ⟨entry, hentry, ⟨⟩⟩ := Option.bind_eq_some_iff.mp (Except.ok.inj hfound)
      exact isInert_unary.inert hentry _
  | assignOp =>
      simp only [recognise, Except.ok.injEq, Option.ite_none_right_eq_some] at hfound
      obtain ⟨entry, hentry, ⟨⟩⟩ := Option.bind_eq_some_iff.mp hfound.2
      unfold assignment? at hentry
      split at hentry
      · cases hentry
      · exact isInert_assignment.inert hentry _
  | binaryOp =>
      simp only [recognise, Cursor.binaryMove, List.head?_cons, Option.some.injEq] at hfound
      split at hfound
      · rename_i hcomma
        subst hcomma
        obtain rfl : extra = 0 := by
          simp only [Cursor.comma, Cursor.fail] at hfound
          grind [Cursor.token]
        exact .mark (by decide) (by decide) _ _
      · split at hfound
        · cases hfound
        · obtain ⟨entry, hentry, ⟨⟩⟩ := Option.bind_eq_some_iff.mp (Except.ok.inj hfound)
          exact isInert_binary.inert hentry _
  | ternaryOp =>
      simp only [recognise, Cursor.ternaryMove, List.head?_cons, Option.some.injEq] at hfound
      split at hfound
      · rename_i hquestion
        subst hquestion
        cases hfound
        exact .mark (by decide) (by decide) _ _
      · split at hfound
        · rename_i hcolon
          subst hcolon
          obtain rfl : extra = 0 := by
            simp only [Cursor.colon, Cursor.fail] at hfound
            grind [Cursor.token]
          exact .mark (by decide) (by decide) _ _
        · cases hfound

end Tokens

-- Inside parentheses and in front of `more`, the search for the closing one passes over the text
-- and goes on with another trail.
def Crosses (depth : Nat) (trail : Trail) (text more : List Char) (after : Trail) : Prop :=
  beforeClosing? (· = '(') (· = ')') (depth + 1) 0 trail (text ++ more) =
    (beforeClosing? (· = '(') (· = ')') (depth + 1) 0 after more).map (text ++ ·)

namespace Crosses

variable {depth : Nat} {trail middle after : Trail} {text more : List Char}

theorem nil : Crosses depth trail [] more trail := by
  simp [Crosses]

theorem append {next : List Char} (h : Crosses depth trail text (next ++ more) middle)
    (hnext : Crosses depth middle next more after) :
    Crosses depth trail (text ++ next) more after := by
  unfold Crosses at *
  rw [List.append_assoc, h, hnext, Option.map_map]
  simp [Function.comp_def]

theorem chars (h : ∀ c ∈ text, isQuote c = false ∧ c ≠ '(' ∧ c ≠ ')') :
    Crosses depth trail text more (text.foldl Trail.push trail) := by
  refine beforeClosing?_chars (fun c hc => ?_) trail more
  obtain ⟨hquote, hopener, hcloser⟩ := h c hc
  exact ⟨hquote, decide_eq_false hopener, decide_eq_false hcloser⟩

theorem quiet (h : ∀ c ∈ text, isQuiet c = true) :
    Crosses depth trail text more (text.foldl Trail.push trail) := by
  refine chars fun c hc => ?_
  have hquiet := h c hc
  simp only [isQuiet, Bool.and_eq_true, Bool.not_eq_true', List.contains_eq_mem,
    decide_eq_false_iff_not, List.mem_cons, List.not_mem_nil, or_false, not_or] at hquiet
  exact ⟨hquiet.1, hquiet.2.1, hquiet.2.2.1⟩

end Crosses

-- What stands between tokens suits whatever suits it.
theorem Trail.Suits.skip {trail : Trail} {state : TokenKind} {blank text : List Char}
    (h : trail.Suits state (blank ++ text)) (hblank : ∀ c ∈ blank, isIdentChar c = false) :
    (blank.foldl Trail.push trail).Suits state text := by
  cases blank with
  | nil => exact h
  | cons c blank =>
      rw [Trail.foldl_push_eq_start hblank (List.cons_ne_nil c blank)]
      exact Trail.suits_start state text

-- The search passes over what a level has read, from any place that suits its beginning. No quote
-- must follow, which could turn an empty literal into three quotes.
def Crossed (_ : Level) (cur : Cursor) (text : List Char) (_ : List Token) (ending : LevelEnd) :
    Prop :=
  ∃ before rest, text = before ++ rest ∧ rest.length = ending.left ∧ ∀ depth trail more,
    trail.Suits cur.state text → (∀ c ∈ more.head?, isQuote c = false) →
    ∃ after, Crosses depth trail before more after

-- The same for the inside of a bracket, where the search has just passed the bracket.
def Enclosed (inside : List Char) : Prop :=
  ∀ depth more, (∀ c ∈ more.head?, isQuote c = false) →
    ∃ after, Crosses depth Trail.start inside more after

theorem quiet_of_isBlank {blank : List Char} (h : ∀ c ∈ blank, isBlank c = true) :
    ∀ c ∈ blank, isQuiet c = true :=
  fun c hc => isQuiet_of_class (h c hc) (by decide)

namespace Enclosed

theorem of_blank {blank : List Char} (h : ∀ c ∈ blank, isBlank c = true) : Enclosed blank :=
  fun _ _ _ => ⟨_, .quiet (quiet_of_isBlank h)⟩

-- Blanks in front leave the search as it is behind the bracket.
theorem blank {blank inside : List Char} (hblank : ∀ c ∈ blank, isBlank c = true)
    (h : Enclosed inside) : Enclosed (blank ++ inside) := by
  intro depth more hmore
  obtain ⟨after, hafter⟩ := h depth more hmore
  have hfirst : Crosses depth Trail.start blank (inside ++ more)
      (blank.foldl Trail.push Trail.start) :=
    .quiet (quiet_of_isBlank hblank)
  have htrail : blank.foldl Trail.push Trail.start = Trail.start :=
    Trail.foldl_push_start fun c hc => isIdentChar_of_isBlank (hblank c hc)
  rw [htrail] at hfirst
  exact ⟨after, hfirst.append hafter⟩

-- A mark between two parts is like the bracket in front of the second.
theorem mark {before inside : List Char} {c : Char} (hbefore : Enclosed before)
    (hquiet : isQuiet c = true) (hident : isIdentChar c = false) (h : Enclosed inside) :
    Enclosed (before ++ c :: inside) := by
  intro depth more hmore
  have hquote : isQuote c = false := by
    simp only [isQuiet, Bool.and_eq_true, Bool.not_eq_true'] at hquiet
    exact hquiet.1
  obtain ⟨middle, hmiddle⟩ := hbefore depth (c :: inside ++ more) (by simpa using hquote)
  obtain ⟨after, hafter⟩ := h depth more hmore
  have hmark : Crosses depth middle [c] (inside ++ more) Trail.start := by
    have hchar : Crosses depth middle [c] (inside ++ more) (middle.push c) :=
      .quiet (List.forall_mem_singleton.mpr hquiet)
    rwa [Trail.push_eq_start hident] at hchar
  exact ⟨after, hmiddle.append (hmark.append hafter)⟩

end Enclosed

theorem Crossed.enclosed {level : Level} {pos : Nat} {separators : Separators}
    {before rest : List Char} {tokens : List Token} {ending : LevelEnd}
    (h : Crossed level (Cursor.start pos separators) (before ++ rest) tokens ending)
    (hleft : ending.left = rest.length) : Enclosed before := by
  obtain ⟨read, left, htext, hlength, hcrosses⟩ := h
  obtain ⟨rfl, -⟩ := List.append_inj' htext (by omega)
  exact fun depth more hmore => hcrosses depth Trail.start more (Trail.suits_start _ _) hmore

theorem Part.enclosed {depth : Nat} {separators : Separators} {pos : Nat} {inside : List Char}
    {tokens : List Token} {found : Option LevelEnd}
    (h : Part (fun pos => Crossed ⟨false, false, depth⟩ (Cursor.start pos separators)) pos inside
      tokens found) : Enclosed inside := by
  cases h with
  | blank hblank => exact .of_blank hblank
  | level hlevel hleft =>
      rw [← List.append_nil inside] at hlevel
      exact hlevel.enclosed hleft

-- Square brackets and braces hold nothing that the search for a parenthesis would not pass over.
theorem Inside.enclosed {depth : Nat} {group : Group} {callee : Callee} {pos : Nat}
    {inside : List Char} {tokens : List Token} {closing : Closing} (hgroup : group.opener ≠ '(')
    (h : Inside (fun separators stopAtColon pos =>
      Crossed ⟨false, stopAtColon, depth⟩ (Cursor.start pos separators)) group callee pos inside
      tokens closing) : Enclosed inside := by
  cases h with
  | subExpr | substArgs | call | noText | text => exact absurd rfl hgroup
  | list hpart | dict hpart => exact hpart.enclosed
  | @index _ _ before text _ _ hblank hlevel hleft =>
      rw [← List.append_nil text] at hlevel
      exact (hlevel.enclosed hleft).blank hblank
  | upper hblank hpart =>
      exact (Enclosed.of_blank hblank).mark (by decide) (by decide) hpart.enclosed
  | slice hblank hlevel hleft _ hpart =>
      exact ((hlevel.enclosed hleft).mark (by decide) (by decide) hpart.enclosed).blank hblank

section Rules

variable {setup : Setup} (hscanner : setup.scanner = scanNumber)

include hscanner

omit hscanner in
theorem binder_quiet {level : Level} {cur : Cursor} {c : Char} {rest : List Char} {stem extra : Nat}
    (hmove : nextMove setup level cur (c :: rest) = .ok (.binder stem extra)) :
    ∀ d ∈ c :: rest.take extra, isQuiet d = true := by
  obtain ⟨word, -, hword, -, -, htake⟩ := word_of_binder hmove
  rw [htake, ← (word?_eq_some hword).2.2]
  exact word_quiet hword

end Rules

end FormulaCode
