import FormulaCode.Proofs.Token.Frames

namespace FormulaCode

-- The second result is the first one, unless the first is a failure for an excused reason.
def Extends (excused : ε → Prop) (first second : Except ε α) : Prop :=
  second = first ∨ ∃ e, first = .error e ∧ excused e

namespace Extends

variable {excused : ε → Prop}

theorem refl (result : Except ε α) : Extends excused result result :=
  Or.inl rfl

theorem eq_ok {first second : Except ε α} (h : Extends excused first second) {a : α}
    (ha : first = .ok a) : second = .ok a := by
  rcases h with rfl | ⟨e, he, -⟩
  · exact ha
  · rw [ha] at he
    cases he

theorem bind {first second : Except ε α} {next later : α → Except ε β}
    (h : Extends excused first second) (hnext : ∀ a, Extends excused (next a) (later a)) :
    Extends excused (first >>= next) (second >>= later) := by
  rcases h with rfl | ⟨e, rfl, he⟩
  · cases second with
    | error e => exact refl _
    | ok a => exact hnext a
  · exact Or.inr ⟨e, rfl, he⟩

theorem foldlM {step wide : β → α → Except ε β}
    (hstep : ∀ b a, Extends excused (step b a) (wide b a)) (items : List α) (start : β) :
    Extends excused (items.foldlM step start) (items.foldlM wide start) := by
  induction items generalizing start with
  | nil => exact refl _
  | cons item items ih =>
      rw [List.foldlM_cons, List.foldlM_cons]
      exact (hstep start item).bind ih

end Extends

namespace Scan

-- The same for runs of the tokenizer.
def Extends (excused : LexError → Prop) (first second : Scan α) : Prop :=
  second = first ∨ ∃ e, first.outcome = .error e ∧ excused e

namespace Extends

variable {excused : LexError → Prop}

theorem refl (run : Scan α) : run.Extends excused run :=
  Or.inl rfl

theorem of_ok {first second : Scan α} (h : ∀ a, first.outcome = .ok a → second = first) :
    first.Extends (fun _ => True) second := by
  cases hout : first.outcome with
  | error e => exact Or.inr ⟨e, hout, trivial⟩
  | ok a => exact Or.inl (h a hout)

theorem eq_of_ok {first second : Scan α} (h : first.Extends excused second) {a : α}
    (ha : first.outcome = .ok a) : second = first := by
  rcases h with h | ⟨e, he, -⟩
  · exact h
  · rw [ha] at he
    cases he

theorem bind {first second : Scan α} {next later : α → Scan β}
    (h : first.Extends excused second) (hnext : ∀ a, (next a).Extends excused (later a)) :
    (first >>= next).Extends excused (second >>= later) := by
  have herror : ∀ e, first.outcome = .error e → (first >>= next).outcome = .error e := by
    intro e he
    change (Scan.bind first next).outcome = _
    rw [Scan.bind, he]
  rcases h with rfl | ⟨e, he, hexcused⟩
  · cases hout : second.outcome with
    | error e =>
        left
        change Scan.bind second later = Scan.bind second next
        simp only [Scan.bind, hout]
    | ok a =>
        rw [bind_of_ok hout, bind_of_ok hout]
        rcases hnext a with hsame | ⟨e, he, hexcused⟩
        · exact Or.inl (by rw [hsame])
        · exact Or.inr ⟨e, he, hexcused⟩
  · exact Or.inr ⟨e, herror e he, hexcused⟩

end Extends

end Scan

-- A comma does not end the inside of a group.
section Groups

variable {excused : LexError → Prop} {inside : List Char}
  {nested wide : Separators → Bool → Nat → (text : List Char) → text.length ≤ inside.length →
    Scan LevelEnd}
  (hnested : ∀ separators stopAtColon pos text h, separators ≠ .terminate →
    (nested separators stopAtColon pos text h).Extends excused
      (wide separators stopAtColon pos text h))

include hnested

theorem scanItems_extends {separators : Separators} (hinside : separators ≠ .terminate) (pos : Nat) :
    (scanItems inside nested separators pos).Extends excused
      (scanItems inside wide separators pos) := by
  unfold scanItems
  split
  · exact .refl _
  · exact (hnested _ _ _ _ _ hinside).bind fun _ => .refl _

theorem scanUpper_extends (pos : Nat) (text : List Char) (h : text.length ≤ inside.length) :
    (scanUpper inside nested pos text h).Extends excused (scanUpper inside wide pos text h) := by
  unfold scanUpper
  split
  · exact .refl _
  · exact (hnested _ _ _ _ _ (by simp)).bind fun _ => .refl _

theorem scanSubscript_extends (pos : Nat) :
    (scanSubscript inside nested pos).Extends excused (scanSubscript inside wide pos) := by
  unfold scanSubscript
  dsimp only
  split
  · exact .refl _
  · split
    · refine Scan.Extends.bind (.refl _) fun _ => ?_
      exact (scanUpper_extends hnested _ _ _).bind fun _ => .refl _
    · refine (hnested _ _ _ _ _ (by simp)).bind fun lower => ?_
      split
      · exact .refl _
      · refine Scan.Extends.bind (.refl _) fun _ => ?_
        exact (scanUpper_extends hnested _ _ _).bind fun _ => .refl _

theorem scanInside_extends (group : Group) (callee : Callee) (pos : Nat) :
    (scanInside inside nested group callee pos).Extends excused
      (scanInside inside wide group callee pos) := by
  cases group with
  | subExpr => exact (hnested _ _ _ _ _ (by simp)).bind fun _ => .refl _
  | substArgs | list | dict => exact (scanItems_extends hnested (by simp) pos).bind fun _ => .refl _
  | subscript => exact (scanSubscript_extends hnested pos).bind fun _ => .refl _
  | call =>
      cases callee with
      | textual => exact .refl _
      | plain | binder => exact (scanItems_extends hnested (by simp) pos).bind fun _ => .refl _

end Groups

def LexError.IsOverflow (e : LexError) : Prop :=
  ∃ resource limit, e.cause = .overflow resource limit

theorem enter_eq_pure {setup : Setup} {level : Level}
    (h : ∀ limit ∈ setup.maxDepth, level.depth < limit) (pos : Nat) :
    enter setup level pos = pure () := by
  unfold enter
  split
  · rename_i limit hlimit
    rw [if_neg (Nat.not_le_of_lt (h limit hlimit))]
  · rfl

-- A group is entered if there is room for it, and otherwise the bound is reported.
theorem enter_cases (setup : Setup) (level : Level) (pos : Nat) :
    (∀ limit ∈ setup.maxDepth, level.depth < limit) ∨
      ∃ limit, enter setup level pos = Scan.fail pos (.overflow .nesting limit) := by
  cases hlimit : setup.maxDepth with
  | none =>
      left
      rintro _ ⟨⟩
  | some limit =>
      by_cases hover : limit ≤ level.depth
      · right
        exact ⟨limit, by simp only [enter, hlimit, if_pos hover]⟩
      · left
        rintro _ ⟨⟩
        exact Nat.lt_of_not_le hover

-- Where so many groups may be open by the first bound, some more may be by the second.
def LeavesRoom (extra : Nat) (limit wide : Option Nat) : Prop :=
  ∀ bound ∈ wide, ∃ old ∈ limit, old + extra ≤ bound

theorem LeavesRoom.lt {extra depth : Nat} {limit wide : Option Nat}
    (hroom : LeavesRoom extra limit wide) (h : ∀ old ∈ limit, depth < old) :
    ∀ bound ∈ wide, extra + depth < bound := by
  intro bound hbound
  obtain ⟨old, hold, hle⟩ := hroom bound hbound
  have hlt := h old hold
  omega

section Depth

variable {setup : Setup} {wide : Option Nat} (hroom : LeavesRoom 0 setup.maxDepth wide)

include hroom

theorem enter_extends (level : Level) (pos : Nat) :
    (enter setup level pos).Extends LexError.IsOverflow
      (enter { setup with maxDepth := wide } level pos) := by
  rcases enter_cases setup level pos with hlt | ⟨limit, hfail⟩
  · have hwide : enter { setup with maxDepth := wide } level pos = pure () :=
      enter_eq_pure (by simpa using hroom.lt hlt) pos
    rw [enter_eq_pure hlt, hwide]
    exact .refl _
  · rw [hfail]
    exact Or.inr ⟨_, rfl, _, _, rfl⟩

theorem scanMove_extends {level : Level} {cur : Cursor} {c : Char} {rest : List Char}
    (ih : ∀ text : List Char, text.length ≤ rest.length → ∀ (level : Level) (cur : Cursor),
      (scanLevel setup level cur text).Extends LexError.IsOverflow
        (scanLevel { setup with maxDepth := wide } level cur text)) (move : Move) :
    (scanMove setup level cur c rest move).Extends LexError.IsOverflow
      (scanMove { setup with maxDepth := wide } level cur c rest move) := by
  have hshorter : ∀ count, (rest.drop count).length ≤ rest.length := by
    intro count
    simp
  cases move with
  | finish => exact .refl _
  | token form extra next =>
      exact Scan.Extends.bind (.refl _) fun _ => ih _ (hshorter extra) _ _
  | binder stem extra =>
      refine Scan.Extends.bind (.refl _) fun _ => Scan.Extends.bind (.refl _) fun _ => ?_
      exact ih _ (hshorter extra) _ _
  | group group =>
      simp only [scanMove]
      split
      · exact .refl _
      · rename_i before hmatch
        refine Scan.Extends.bind (.refl _) fun _ => ?_
        refine Scan.Extends.bind (scanInside_extends ?_ _ _ _) fun _ => ?_
        · intro separators stopAtColon pos inner hinner _
          refine (enter_extends hroom level pos).bind fun _ => ?_
          exact ih _ (by rw [List.length_take] at hinner; omega) _ _
        · exact Scan.Extends.bind (.refl _) fun _ => ih _ (hshorter before.length) _ _

-- More room for groups changes nothing but the failure to stay within the old bound.
theorem scanLevel_extends (level : Level) (cur : Cursor) (text : List Char) :
    (scanLevel setup level cur text).Extends LexError.IsOverflow
      (scanLevel { setup with maxDepth := wide } level cur text) := by
  induction text using scan_induction generalizing level cur with
  | blank skipped hskipped =>
      rw [scanLevel_skip hskipped, scanLevel_skip hskipped, scanLevel_end, scanLevel_end]
      exact .refl _
  | step skipped c rest hskipped hc ih =>
      rw [scanLevel_skip hskipped, scanLevel_skip hskipped, scanLevel_cons hc, scanLevel_cons hc]
      exact Scan.Extends.bind (.refl _) fun move => scanMove_extends hroom ih move

end Depth

-- The same for a wider bound on the number of tokens.
theorem Scan.limit_extends (run : Scan α) {limit wide : Nat} (hle : limit ≤ wide) :
    FormulaCode.Extends LexError.IsOverflow (run.limit (some limit)) (run.limit (some wide)) := by
  cases htoken : run.tokens[limit]? with
  | some token =>
      right
      refine ⟨⟨token.start, .overflow .tokens limit⟩, ?_, _, _, rfl⟩
      simp [Scan.limit, htoken]
  | none =>
      have hlength := List.getElem?_eq_none_iff.mp htoken
      have hnone : run.tokens[wide]? = none := List.getElem?_eq_none_iff.mpr (by omega)
      left
      simp [Scan.limit, htoken, hnone]

theorem Scan.limit_of_overflow {run : Scan α} {e : LexError} (he : run.outcome = .error e)
    (hoverflow : e.IsOverflow) (limit : Nat) :
    ∃ e', run.limit (some limit) = .error e' ∧ e'.IsOverflow := by
  cases htoken : run.tokens[limit]? with
  | some token =>
      exact ⟨⟨token.start, .overflow .tokens limit⟩, by simp [Scan.limit, htoken], _, _, rfl⟩
  | none => exact ⟨e, by simp [Scan.limit, htoken, he], hoverflow⟩

theorem tokenize_extends {setup : Setup} {depth wideDepth : Nat}
    (hdepth : setup.maxDepth = some depth) (hdepths : depth ≤ wideDepth) {limit wide : Nat}
    (hle : limit ≤ wide) (text : List Char) :
    Extends LexError.IsOverflow (tokenize setup (some limit) text)
      (tokenize { setup with maxDepth := some wideDepth } (some wide) text) := by
  have hrun : (scanText setup text).Extends LexError.IsOverflow
      (scanText { setup with maxDepth := some wideDepth } text) := by
    rw [scanText_eq, scanText_eq]
    exact scanLevel_extends (by rintro _ ⟨⟩; exact ⟨depth, hdepth, hdepths⟩) _ _ _
  rcases hrun with hsame | ⟨e, he, hoverflow⟩
  · rw [tokenize_eq, tokenize_eq, hsame]
    exact ((scanText setup text).limit_extends hle).bind fun _ => .refl _
  · obtain ⟨e', he', hoverflow'⟩ := Scan.limit_of_overflow he hoverflow limit
    refine Or.inr ⟨e', ?_, hoverflow'⟩
    simp only [tokenize_eq, he']
    rfl

end FormulaCode
