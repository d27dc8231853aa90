import FormulaCode.Proofs.Bracket
import FormulaCode.Proofs.Token.Equations

namespace FormulaCode

theorem byteLength_singleton (c : Char) : byteLength [c] = c.utf8Size :=
  rfl

theorem Group.utf8Size_closer (group : Group) : group.closer.utf8Size = 1 := by
  cases group <;> decide

-- The text of a group, its brackets included, is cut out of the text.
theorem matching?_split {group : Group} {c : Char} {rest before : List Char}
    (h : matching? (· = group.opener) (· = group.closer) (c :: rest) = some before) :
    c :: rest = before ++ group.closer :: rest.drop before.length := by
  obtain ⟨d, after, htext, hd⟩ := beforeClosing?_eq_some h
  obtain rfl : d = group.closer := by simpa using hd
  have hdrop : (c :: rest).drop (before.length + 1) = after := by
    rw [htext, ← List.drop_drop, List.drop_left]
    rfl
  rw [List.drop_succ_cons] at hdrop
  rw [hdrop, htext]

-- The brackets of a group stay the same whatever stands behind them.
theorem matching?_behind {group : Group} {inside rest : List Char}
    (h : matching? (· = group.opener) (· = group.closer)
      (group.opener :: (inside ++ group.closer :: rest)) = some (group.opener :: inside))
    (more : List Char) :
    matching? (· = group.opener) (· = group.closer)
      (group.opener :: (inside ++ group.closer :: more)) = some (group.opener :: inside) := by
  have hfound : beforeClosing? (· = group.opener) (· = group.closer) 0 0 Trail.start
      (group.opener :: inside ++ group.closer :: rest) = some (group.opener :: inside) := h
  obtain ⟨trail, htrail⟩ := beforeClosing?_within hfound 0 more
  have hclose : beforeClosing? (· = group.opener) (· = group.closer) 1 0 trail
      (group.closer :: more) = some [] := by
    cases group <;> simp [beforeClosing?, Group.opener, Group.closer, isQuote]
  rw [hclose, Option.map_some, List.append_nil] at htrail
  exact htrail

-- A level ends between two characters of its text. It has read the bytes before that place and
-- has left the characters behind it.
def LevelEnd.Splits (ending : LevelEnd) (pos : Nat) (text : List Char) : Prop :=
  ∃ before rest, text = before ++ rest ∧ rest.length = ending.left ∧
    ending.stop = pos + byteLength before

theorem LevelEnd.Splits.append {ending : LevelEnd} {pos : Nat} {text : List Char}
    (before : List Char) (h : ending.Splits (pos + byteLength before) text) :
    ending.Splits pos (before ++ text) := by
  obtain ⟨more, rest, rfl, hleft, hstop⟩ := h
  refine ⟨before ++ more, rest, by simp, hleft, ?_⟩
  rw [hstop, byteLength_append, Nat.add_assoc]

theorem endLevel_splits {level : Level} {cur : Cursor} (text : List Char) {ending : LevelEnd}
    (h : (endLevel level cur text.length).outcome = .ok ending) : ending.Splits cur.pos text := by
  obtain ⟨hstop, hleft⟩ := endLevel_eq_ok h
  exact ⟨[], text, rfl, hleft.symm, hstop⟩

theorem scanMove_splits {setup : Setup} {level : Level} {cur : Cursor} {c : Char}
    {rest : List Char}
    (ih : ∀ text : List Char, text.length ≤ rest.length → ∀ {cur : Cursor} {ending : LevelEnd},
      (scanLevel setup level cur text).outcome = .ok ending → ending.Splits cur.pos text)
    {move : Move} {ending : LevelEnd}
    (h : (scanMove setup level cur c rest move).outcome = .ok ending) :
    ending.Splits cur.pos (c :: rest) := by
  have hshorter : ∀ count, (rest.drop count).length ≤ rest.length := by
    intro count
    simp
  have hsplit : ∀ count, c :: rest = c :: rest.take count ++ rest.drop count := by
    intro count
    simp
  cases move with
  | finish => exact endLevel_splits (c :: rest) h
  | token form extra next =>
      have hrest := ih _ (hshorter extra) h
      rw [hsplit extra]
      exact .append _ hrest
  | binder stem extra =>
      obtain ⟨_, -, h⟩ := Scan.exists_of_bind h
      obtain ⟨_, -, h⟩ := Scan.exists_of_bind h
      have hrest := ih _ (hshorter extra) h
      rw [hsplit extra]
      exact .append _ hrest
  | group group =>
      simp only [scanMove] at h
      split at h
      · cases h
      · rename_i before hmatch
        obtain ⟨_, -, h⟩ := Scan.exists_of_bind h
        obtain ⟨_, -, h⟩ := Scan.exists_of_bind h
        obtain ⟨_, -, h⟩ := Scan.exists_of_bind h
        have hrest := ih _ (hshorter before.length) h
        have hwidth : byteLength (before ++ [group.closer]) = byteLength before + 1 := by
          rw [byteLength_append]
          simp [byteLength, group.utf8Size_closer]
        have htext : c :: rest = (before ++ [group.closer]) ++ rest.drop before.length := by
          rw [List.append_assoc]
          exact matching?_split hmatch
        rw [htext]
        refine .append _ ?_
        rw [hwidth]
        exact hrest

theorem scanLevel_splits {setup : Setup} {level : Level} {cur : Cursor} {text : List Char}
    {ending : LevelEnd} (h : (scanLevel setup level cur text).outcome = .ok ending) :
    ending.Splits cur.pos text := by
  induction text using scan_induction generalizing cur ending with
  | blank skipped hskipped =>
      rw [scanLevel_skip hskipped, scanLevel_end] at h
      refine .append skipped ?_
      split at h
      · exact endLevel_splits [] h
      · cases h
  | step skipped c rest hskipped hc ih =>
      rw [scanLevel_skip hskipped, scanLevel_cons hc] at h
      obtain ⟨move, -, h⟩ := Scan.exists_of_bind h
      exact .append skipped (scanMove_splits ih h)

end FormulaCode
