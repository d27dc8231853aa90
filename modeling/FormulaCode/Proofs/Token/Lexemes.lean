import FormulaCode.Proofs.Number
import FormulaCode.Proofs.Token.Nesting
import FormulaCode.Proofs.Token.Success

namespace FormulaCode

-- A text ends in one of the words, but for what the tokenizer skips.
def EndsIn (words : List (List Char)) (text : List Char) : Prop :=
  ∃ head, ∃ word ∈ words, ∃ gap, text = head ++ (word ++ gap) ∧ ∀ c ∈ gap, isSkipped c = true

-- A name is the word that a text begins with, or the part of it that names a function if the rest
-- is a variable.
def IsName (after name : List Char) : Prop :=
  word? after = some name ∨ ∃ word, word? after = some word ∧ binderStem? word = some name

-- The variable that a function binds is the rest of the word that names the function.
def IsVariable (before after name : List Char) : Prop :=
  ∃ head stem, before = head ++ stem ∧ word? (stem ++ after) = some (stem ++ name) ∧
    binderStem? (stem ++ name) = some stem

-- The argument of a text function is what stands between its parentheses, but for the blanks around
-- it, and is no literal.
def IsArgument (before after value : List Char) : Prop :=
  ∃ opened blank trailing, before = opened ++ '(' :: blank ∧ EndsIn textFunctions opened ∧
    (∀ c ∈ blank ++ trailing, isBlank c = true) ∧
    matching? (· = '(') (· = ')') ('(' :: (blank ++ after)) =
      some ('(' :: (blank ++ (value ++ trailing))) ∧
    trim (blank ++ (value ++ trailing)) = value ∧ value ≠ [] ∧ ¬IsQuoted value

-- What a token says of the text around the place where it begins.
def Token.ReadsAt (token : Token) (before after : List Char) : Prop :=
  token.text <+: after ∧ match token.form with
    | .number => ∃ value, scanNumber after = some (value, token.text.length)
    | .string false =>
        ∃ literal, Literal.scan after = .found literal ∧ literal.width = token.text.length
    | .string true => IsVariable before after token.text ∨ IsArgument before after token.text
    | .name => IsName after token.text
    | .memberName => word? after = some token.text
    | .dollarName => word? after = some token.text ∧ EndsIn [['$']] before
    | _ => True

def Token.ReadsIn (token : Token) (text : List Char) : Prop :=
  ∃ before after, text = before ++ after ∧ token.start = byteLength before ∧
    token.ReadsAt before after

theorem EndsIn.skip {words : List (List Char)} {text skipped : List Char} (h : EndsIn words text)
    (hskipped : ∀ c ∈ skipped, isSkipped c = true) : EndsIn words (text ++ skipped) := by
  obtain ⟨head, word, hword, gap, rfl, hgap⟩ := h
  refine ⟨head, word, hword, gap ++ skipped, by simp, fun c hc => ?_⟩
  exact (List.mem_append.mp hc).elim (hgap c) (hskipped c)

-- A text is cut off by a closing bracket, or is at its end.
def IsSealed (more : List Char) : Prop :=
  ∀ c ∈ more.head?, ∃ group : Group, c = group.closer

theorem isSealed_nil : IsSealed [] := by
  intro c hc
  cases hc

theorem IsSealed.of_class {more : List Char} (h : IsSealed more) {p : Char → Bool}
    (hp : ∀ group : Group, p group.closer = false) : ∀ c ∈ more.head?, p c = false := by
  intro c hc
  obtain ⟨group, rfl⟩ := h c hc
  exact hp group

theorem Group.isSealed (group : Group) (rest : List Char) : IsSealed (group.closer :: rest) := by
  rintro _ ⟨⟩
  exact ⟨group, rfl⟩

theorem Group.isIdentChar_closer (group : Group) : isIdentChar group.closer = false := by
  cases group <;> decide

theorem Group.isQuote_closer (group : Group) : isQuote group.closer = false := by
  cases group <;> decide

-- A word ends where the next character belongs to none.
theorem word?_append {text more word : List Char} (h : word? text = some word)
    (hmore : ∀ c ∈ more.head?, isIdentChar c = false) : word? (text ++ more) = some word := by
  simp only [word?, Option.ite_none_right_eq_some, Option.some.injEq] at h ⊢
  obtain ⟨hletter, rfl⟩ := h
  constructor
  · cases text with
    | nil => cases hletter
    | cons c rest => exact hletter
  · have hsplit : text.takeWhile isIdentChar ++ text.dropWhile isIdentChar = text :=
      List.takeWhile_append_dropWhile
    have hhead : ∀ c ∈ (text.dropWhile isIdentChar ++ more).head?, isIdentChar c = false := by
      intro c hc
      cases hdrop : text.dropWhile isIdentChar with
      | nil =>
          rw [hdrop, List.nil_append] at hc
          exact hmore c hc
      | cons d tail =>
          rw [hdrop] at hc
          cases hc
          have hfirst := List.head?_dropWhile_not isIdentChar text
          rw [hdrop] at hfirst
          simpa using hfirst
    have htake := (takeWhile_append_of_head isIdentChar text _ hhead).1
    rwa [← List.append_assoc, hsplit] at htake

theorem binderStem?_prefix {word stem : List Char} (h : binderStem? word = some stem) :
    word = stem ++ word.drop stem.length := by
  have hfound := List.find?_some h
  simp only [Bool.and_eq_true, List.isPrefixOf_iff_prefix] at hfound
  obtain ⟨tail, rfl⟩ := hfound.1
  rw [List.drop_left]

-- What stands before the cursor, as far as the next token depends on it.
structure Cursor.Follows (cur : Cursor) (behind : List Char) : Prop where
  textual : cur.callee = .textual → EndsIn textFunctions behind
  dollar : cur.state = .dollar → EndsIn [['$']] behind

theorem Cursor.follows_any {cur : Cursor} (hcallee : cur.callee ≠ .textual)
    (hstate : cur.state ≠ .dollar) (behind : List Char) : cur.Follows behind :=
  ⟨fun h => (hcallee h).elim, fun h => (hstate h).elim⟩

section Moves

variable {setup : Setup} {level : Level} {cur : Cursor} {c : Char} {rest behind more : List Char}
  (hscanner : setup.scanner = scanNumber) (hsealed : IsSealed more)

include hsealed

theorem literal_reads {form : Form} {extra : Nat} {next : Cursor}
    (h : cur.stringToken (c :: rest) = .ok (some (.token form extra next))) :
    ∃ literal, Literal.scan (c :: rest ++ more) = .found literal ∧
      literal.width = (c :: rest.take extra).length := by
  simp only [Cursor.stringToken] at h
  split at h
  · cases h
  · cases h
  · rename_i literal hliteral
    obtain ⟨-, rfl, -⟩ := Cursor.token_eq_some (Except.ok.inj h)
    refine ⟨literal, Literal.scan_append hliteral (hsealed.of_class Group.isQuote_closer), ?_⟩
    obtain ⟨lexeme, after, htext, hwidth, -⟩ := Literal.scan_eq_found hliteral
    rw [Cursor.take_pred_cons c rest literal.width_pos, htext, ← hwidth, List.take_left]

theorem word_reads {word : List Char} {form found : Form} {extra : Nat} {next : Cursor}
    (hword : word? (c :: rest) = some word)
    (htoken : cur.token form word.length = some (.token found extra next)) :
    word? (c :: rest ++ more) = some (c :: rest.take extra) := by
  obtain ⟨-, rfl, -⟩ := Cursor.token_eq_some htoken
  rw [(word?_eq_some hword).2.2]
  exact word?_append hword (hsealed.of_class Group.isIdentChar_closer)

theorem name_reads {form : Form} {extra : Nat} {next : Cursor}
    (h : cur.nameMove (c :: rest) = some (.token form extra next)) :
    word? (c :: rest ++ more) = some (c :: rest.take extra) := by
  obtain ⟨word, hword, hmove⟩ := Option.bind_eq_some_iff.mp h
  simp only at hmove
  split at hmove
  · cases hmove
  · split at hmove
    · cases hmove
    · cases hmove
      rw [(word?_eq_some hword).2.2]
      exact word?_append hword (hsealed.of_class Group.isIdentChar_closer)

include hscanner

end Moves

-- The tokens of a level are true to a text that holds the level behind what the cursor follows and
-- before a closing bracket.
def Traced (_ : Level) (cur : Cursor) (text : List Char) (tokens : List Token) (_ : LevelEnd) :
    Prop :=
  ∀ behind more, cur.pos = byteLength behind → cur.Follows behind → IsSealed more →
    ∀ token ∈ tokens, token.ReadsIn (behind ++ (text ++ more))

section Inside

variable {depth : Nat} {behind more : List Char} (hsealed : IsSealed more)

include hsealed

theorem Traced.start {level : Level} {separators : Separators} {pos : Nat} {text : List Char}
    {tokens : List Token} {ending : LevelEnd}
    (h : Traced level (Cursor.start pos separators) text tokens ending)
    (hpos : pos = byteLength behind) :
    ∀ token ∈ tokens, token.ReadsIn (behind ++ (text ++ more)) := by
  apply h behind more hpos _ hsealed
  exact Cursor.follows_any (by simp [Cursor.start]) (by simp [Cursor.start]) behind

end Inside

end FormulaCode
