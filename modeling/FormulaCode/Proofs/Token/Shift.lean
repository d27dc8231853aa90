import FormulaCode.Proofs.Token.Limits
import FormulaCode.Proofs.Token.Recognise

namespace FormulaCode

def Token.relocate (place : Nat → Nat) (token : Token) : Token :=
  { token with start := place token.start }

def Token.shift (offset : Nat) (token : Token) : Token :=
  { token with start := token.start + offset }

-- A run and the same run further on in a text, with an answer that goes along. Nothing is said of
-- a run that fails.
def Scan.Shifts (offset : Nat) (answer : α → α) (first second : Scan α) : Prop :=
  ∀ a, first.outcome = .ok a → second = ⟨first.tokens.map (Token.shift offset), .ok (answer a)⟩

namespace Scan.Shifts

variable {offset : Nat}

theorem pure (a : α) : (Pure.pure a : Scan α).Shifts offset id (Pure.pure a) := by
  rintro _ ⟨⟩
  rfl

theorem emit (start : Nat) (text : List Char) (form : Form) :
    (Scan.emit start text form).Shifts offset id (Scan.emit (start + offset) text form) := by
  rintro _ ⟨⟩
  rfl

theorem fail {position : Nat} {cause : LexCause} {answer : α → α} {second : Scan α} :
    (Scan.fail position cause).Shifts offset answer second := by
  rintro _ ⟨⟩

theorem ofExcept {answer : α → α} {first second : Except LexError α}
    (h : ∀ a, first = .ok a → second = .ok (answer a)) :
    (Scan.ofExcept first).Shifts offset answer (Scan.ofExcept second) := by
  intro a ha
  rw [h a ha]
  rfl

theorem bind {answer : α → α} {result : β → β} {first second : Scan α} {next later : α → Scan β}
    (h : first.Shifts offset answer second)
    (hnext : ∀ a, (next a).Shifts offset result (later (answer a))) :
    (first >>= next).Shifts offset result (second >>= later) := by
  intro b hb
  obtain ⟨a, ha, hb⟩ := exists_of_bind hb
  rw [h a ha, bind_of_ok (a := answer a) rfl, hnext a b hb, bind_of_ok ha]
  simp [after]

end Scan.Shifts

section Groups

variable {offset : Nat} {inside : List Char}
  {nested wide : Separators → Bool → Nat → (text : List Char) → text.length ≤ inside.length →
    Scan LevelEnd}
  (hnested : ∀ separators stopAtColon pos text h,
    (nested separators stopAtColon pos text h).Shifts offset (LevelEnd.shift offset)
      (wide separators stopAtColon (pos + offset) text h))

include hnested

theorem scanItems_shifts (separators : Separators) (pos : Nat) :
    (scanItems inside nested separators pos).Shifts offset id
      (scanItems inside wide separators (pos + offset)) := by
  unfold scanItems
  split
  · exact .pure _
  · exact (hnested _ _ _ _ _).bind fun ending => .pure ending.items

theorem scanUpper_shifts (pos : Nat) (text : List Char) (h : text.length ≤ inside.length) :
    (scanUpper inside nested pos text h).Shifts offset id
      (scanUpper inside wide (pos + offset) text h) := by
  unfold scanUpper
  split
  · exact .pure _
  · exact (hnested _ _ _ _ _).bind fun _ => .pure _

theorem scanSubscript_shifts (pos : Nat) :
    (scanSubscript inside nested pos).Shifts offset id
      (scanSubscript inside wide (pos + offset)) := by
  unfold scanSubscript
  rw [Nat.add_right_comm pos offset]
  dsimp only
  split
  · exact .fail
  · split
    · refine (Scan.Shifts.emit _ _ _).bind fun _ => ?_
      rw [Nat.add_right_comm _ offset]
      exact (scanUpper_shifts hnested _ _ _).bind fun _ => .pure _
    · refine (hnested _ _ _ _ _).bind fun lower => ?_
      split
      · rename_i hleft
        have hleft : (lower.shift offset).left = 0 := hleft
        rw [if_pos hleft]
        exact .pure _
      · rename_i hleft
        have hleft : ¬(lower.shift offset).left = 0 := hleft
        rw [if_neg hleft]
        refine (Scan.Shifts.emit _ _ _).bind fun _ => ?_
        have hpos : (lower.shift offset).stop + 1 = lower.stop + 1 + offset :=
          Nat.add_right_comm _ _ _
        rw [hpos]
        exact (scanUpper_shifts hnested _ _ _).bind fun _ => .pure _

omit hnested in
theorem scanVerbatim_shifts (pos : Nat) :
    (scanVerbatim pos inside).Shifts offset id (scanVerbatim (pos + offset) inside) := by
  unfold scanVerbatim
  rw [Nat.add_right_comm pos offset]
  dsimp only
  split
  · exact .pure _
  · exact (Scan.Shifts.emit _ _ _).bind fun _ => .pure _

theorem scanInside_shifts (group : Group) (callee : Callee) (pos : Nat) :
    (scanInside inside nested group callee pos).Shifts offset id
      (scanInside inside wide group callee (pos + offset)) := by
  have hitems := scanItems_shifts hnested
  cases group with
  | subExpr => exact (hnested _ _ _ _ _).bind fun _ => .pure _
  | substArgs | list | dict => exact (hitems _ pos).bind fun _ => .pure _
  | subscript => exact (scanSubscript_shifts hnested pos).bind fun _ => .pure _
  | call =>
      cases callee with
      | textual => exact (scanVerbatim_shifts pos).bind fun _ => .pure _
      | plain | binder => exact (hitems _ pos).bind fun _ => .pure _

end Groups

section Levels

variable {setup : Setup} {extra : Nat} {wide : Option Nat}
  (hroom : LeavesRoom extra setup.maxDepth wide) (offset : Nat)

include hroom

theorem enter_shifts (level : Level) (pos : Nat) :
    (enter setup level pos).Shifts offset id
      (enter { setup with maxDepth := wide } (level.deepen extra) (pos + offset)) := by
  rcases enter_cases setup level pos with hlt | ⟨limit, hfail⟩
  · have hwide : enter { setup with maxDepth := wide } (level.deepen extra) (pos + offset) =
        pure () :=
      enter_eq_pure (hroom.lt hlt) _
    rw [enter_eq_pure hlt, hwide]
    exact .pure _
  · rw [hfail]
    exact .fail

omit hroom in
theorem endLevel_shifts (level : Level) (cur : Cursor) (left : Nat) :
    (endLevel level cur left).Shifts offset (LevelEnd.shift offset)
      (endLevel (level.deepen extra) (cur.shift offset) left) := by
  have hseparators : (cur.shift offset).separators = cur.separators := rfl
  intro ending hending
  unfold endLevel at hending ⊢
  rw [hseparators]
  split at hending
  · cases hending
  · cases htop : level.top <;> simp only [Level.deepen, htop] at hending ⊢ <;> cases hending <;> rfl

theorem scanMove_shifts {level : Level} {cur : Cursor} {c : Char} {rest : List Char}
    (ih : ∀ text : List Char, text.length ≤ rest.length → ∀ (level : Level) (cur : Cursor),
      (scanLevel setup level cur text).Shifts offset (LevelEnd.shift offset)
        (scanLevel { setup with maxDepth := wide } (level.deepen extra) (cur.shift offset) text))
    (move : Move) :
    (scanMove setup level cur c rest move).Shifts offset (LevelEnd.shift offset)
      (scanMove { setup with maxDepth := wide } (level.deepen extra) (cur.shift offset) c rest
        (move.shift offset)) := by
  have hshorter : ∀ count, (rest.drop count).length ≤ rest.length := by
    intro count
    simp
  have hpos : ∀ width, (cur.shift offset).pos + width = cur.pos + width + offset :=
    fun width => Nat.add_right_comm _ _ _
  cases move with
  | finish => exact endLevel_shifts offset level cur _
  | token form extra next =>
      simp only [scanMove, Move.shift, hpos]
      exact (Scan.Shifts.emit _ _ _).bind fun _ => ih _ (hshorter extra) _ _
  | binder stem extra =>
      simp only [scanMove, Move.shift, hpos]
      refine (Scan.Shifts.emit _ _ _).bind fun _ => (Scan.Shifts.emit _ _ _).bind fun _ => ?_
      exact ih _ (hshorter extra) _ _
  | group group =>
      simp only [scanMove, Move.shift, hpos]
      split
      · exact .fail
      · rename_i before hmatch
        refine (Scan.Shifts.emit _ _ _).bind fun _ => ?_
        refine (scanInside_shifts ?_ _ _ _).bind fun _ => ?_
        · intro separators stopAtColon pos inner hinner
          refine (enter_shifts hroom offset level pos).bind fun _ => ?_
          exact ih _ (by rw [List.length_take] at hinner; omega) _ _
        · refine (Scan.Shifts.emit _ _ _).bind fun _ => ?_
          rw [Nat.add_right_comm _ offset]
          exact ih _ (hshorter before.length) _ _

-- A level that is read is read in the same way further on, and inside more groups if there is room
-- for them.
theorem scanLevel_shifts (level : Level) (cur : Cursor) (text : List Char) :
    (scanLevel setup level cur text).Shifts offset (LevelEnd.shift offset)
      (scanLevel { setup with maxDepth := wide } (level.deepen extra) (cur.shift offset) text) := by
  have hskip : ∀ (cur : Cursor) width,
      { cur.shift offset with pos := (cur.shift offset).pos + width } =
        { cur with pos := cur.pos + width }.shift offset := by
    intro cur width
    simp only [Cursor.shift, Nat.add_right_comm]
  induction text using scan_induction generalizing level cur with
  | blank skipped hskipped =>
      rw [scanLevel_skip hskipped, scanLevel_skip hskipped, hskip, scanLevel_end, scanLevel_end,
        Cursor.candidates_shift]
      split
      · exact endLevel_shifts offset level _ 0
      · exact .fail
  | step skipped c rest hskipped hc ih =>
      rw [scanLevel_skip hskipped, scanLevel_skip hskipped, hskip, scanLevel_cons hc,
        scanLevel_cons hc]
      exact (Scan.Shifts.ofExcept fun _ h => by rw [nextMove_shift, h]; rfl).bind
        fun move => scanMove_shifts hroom offset ih move

end Levels

end FormulaCode
