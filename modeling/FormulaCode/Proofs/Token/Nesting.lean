import FormulaCode.Proofs.Token.Grammar
import FormulaCode.Proofs.Token.Limits

namespace FormulaCode

-- What is open in front of a token: so many groups, and whether the token before it is the name of
-- a function that takes its argument as text, or the bracket behind such a name.
structure Enclosure where
  groups : Nat
  textual : Bool
  verbatim : Bool

namespace Enclosure

def push (e : Enclosure) (token : Token) : Enclosure :=
  match token.form with
  | .name => ⟨e.groups, textFunctions.contains token.text, false⟩
  | .opening group => ⟨e.groups + 1, false, group = .call && e.textual⟩
  | .closing _ => ⟨e.groups - 1, false, false⟩
  | _ => ⟨e.groups, false, false⟩

-- The number of groups whose insides are being read at a token. A closing bracket and the mark of a
-- slice belong to a group and not to its inside, and an argument taken as text is not read.
def insides (e : Enclosure) (token : Token) : Nat :=
  match token.form with
  | .closing _ | .sliceMark => e.groups - 1
  | _ => if e.verbatim then e.groups - 1 else e.groups

theorem push_of_isPlain {e : Enclosure} {token : Token} (h : token.form.IsPlain) :
    e.push token =
      ⟨e.groups, token.form = .name && textFunctions.contains token.text, false⟩ := by
  obtain ⟨start, text, form⟩ := token
  cases form with
  | opening | closing | sliceMark | finish => exact h.elim
  | name => simp [push]
  | _ => simp [push]

theorem insides_of_isPlain {e : Enclosure} {token : Token} (h : token.form.IsPlain)
    (hread : e.verbatim = false) : e.insides token = e.groups := by
  obtain ⟨start, text, form⟩ := token
  cases form with
  | opening | closing | sliceMark | finish => exact h.elim
  | _ => simp [insides, hread]

end Enclosure

def nestingFrom (e : Enclosure) : List Token → Nat
  | [] => 0
  | token :: rest => max (e.insides token) (nestingFrom (e.push token) rest)

-- The most insides of groups that are read at once.
def nesting (tokens : List Token) : Nat :=
  nestingFrom ⟨0, false, false⟩ tokens

theorem nestingFrom_append (e : Enclosure) (tokens more : List Token) :
    nestingFrom e (tokens ++ more) =
      max (nestingFrom e tokens) (nestingFrom (tokens.foldl Enclosure.push e) more) := by
  induction tokens generalizing e with
  | nil => simp [nestingFrom]
  | cons token rest ih => simp [nestingFrom, ih, Nat.max_assoc]

-- The first token of a level is read inside all groups that are open.
theorem Units.groups_le_nestingFrom {tokens : List Token} {units : List Form} {last : TokenKind}
    (h : Units .start false tokens units last) (hends : .finish ∈ last.successors) {e : Enclosure}
    (hread : e.verbatim = false) : e.groups ≤ nestingFrom e tokens := by
  have hfirst : ∀ token rest, e.insides token = e.groups →
      e.groups ≤ nestingFrom e (token :: rest) := by
    intro token rest htoken
    rw [nestingFrom, htoken]
    exact Nat.le_max_left _ _
  cases h with
  | done => exact absurd hends (by decide)
  | token _ hplain => exact hfirst _ _ (Enclosure.insides_of_isPlain hplain hread)
  | binder _ hname =>
      exact hfirst _ _ (Enclosure.insides_of_isPlain (by rw [hname]; trivial) hread)
  | group _ _ hopens => exact hfirst _ _ (by simp [Enclosure.insides, hopens, hread])

-- Two runs of the tokenizer from an enclosure, the first with a bound on the nesting. If the second
-- succeeds, then the first is the same and ends in an enclosure with the postcondition, as long as
-- the tokens stay within the bound. Otherwise it fails for the bound.
def Scan.Tight (limit : Nat) (e : Enclosure) (post : Enclosure → Prop) (first second : Scan α) :
    Prop :=
  ∀ a, second.outcome = .ok a →
    (nestingFrom e second.tokens ≤ limit ∧ first = second ∧
      post (second.tokens.foldl Enclosure.push e)) ∨
    (limit < nestingFrom e second.tokens ∧
      ∃ error, first.outcome = .error error ∧ error.IsOverflow)

namespace Scan.Tight

variable {limit : Nat} {e : Enclosure} {post mid : Enclosure → Prop}

theorem pure {a : α} (h : post e) :
    Scan.Tight limit e post (Pure.pure a : Scan α) (Pure.pure a) := by
  rintro _ -
  exact Or.inl ⟨Nat.zero_le _, rfl, h⟩

theorem error {first second : Scan α} {error : LexError} (h : second.outcome = .error error) :
    Scan.Tight limit e post first second := by
  intro a ha
  rw [h] at ha
  cases ha

theorem emit {start : Nat} {text : List Char} {form : Form}
    (hinsides : e.insides ⟨start, text, form⟩ ≤ limit) :
    Scan.Tight limit e (fun after => after = e.push ⟨start, text, form⟩)
      (Scan.emit start text form) (Scan.emit start text form) := by
  rintro _ -
  refine Or.inl ⟨?_, rfl, rfl⟩
  change max _ 0 ≤ limit
  rw [Nat.max_zero]
  exact hinsides

theorem bind {first second : Scan α} {next later : α → Scan β}
    (h : Scan.Tight limit e mid first second)
    (hnext : ∀ a after, mid after → Scan.Tight limit after post (next a) (later a)) :
    Scan.Tight limit e post (first >>= next) (second >>= later) := by
  intro b hb
  obtain ⟨a, ha, hlater⟩ := exists_of_bind hb
  have htokens : (second >>= later).tokens = second.tokens ++ (later a).tokens := by
    rw [bind_of_ok ha]
    rfl
  rw [htokens, List.foldl_append, nestingFrom_append]
  rcases h a ha with ⟨hle, rfl, hmid⟩ | ⟨hlt, error, herror, hoverflow⟩
  · rcases hnext a _ hmid b hlater with ⟨hle', hsame, hpost⟩ | ⟨hlt, error, herror, hoverflow⟩
    · left
      refine ⟨Nat.max_le.mpr ⟨hle, hle'⟩, ?_, hpost⟩
      rw [bind_of_ok ha, bind_of_ok ha, hsame]
    · right
      refine ⟨Nat.lt_of_lt_of_le hlt (Nat.le_max_right _ _), error, ?_, hoverflow⟩
      rw [bind_of_ok ha]
      exact herror
  · right
    refine ⟨Nat.lt_of_lt_of_le hlt (Nat.le_max_left _ _), error, ?_, hoverflow⟩
    change (Scan.bind first next).outcome = _
    rw [Scan.bind, herror]

end Scan.Tight

-- The enclosure in front of a cursor.
def Cursor.enclosure (level : Level) (cur : Cursor) : Enclosure :=
  ⟨level.depth, cur.callee = .textual, false⟩

-- Only the name of a text function makes the call behind it one that takes its argument as text.
theorem textual_of_nextMove {setup : Setup} {level : Level} {cur next : Cursor} {c : Char}
    {rest : List Char} {form : Form} {extra : Nat}
    (h : nextMove setup level cur (c :: rest) = .ok (.token form extra next)) :
    decide (next.callee = .textual) =
      (form = .name && textFunctions.contains (c :: rest.take extra)) := by
  obtain ⟨-, -, hfound⟩ := mem_successors_of_nextMove h (by simp)
  by_cases hname : form = .name
  · subst hname
    obtain ⟨word, hword, hmove⟩ := Option.bind_eq_some_iff.mp (Except.ok.inj hfound)
    obtain ⟨-, -, htake⟩ := word?_eq_some hword
    simp only at hmove
    split at hmove
    · cases hmove
    · split at hmove
      · cases hmove
      · cases hmove
        rw [htake]
        cases textFunctions.contains word <;> rfl
  · have hkind : form.kind ≠ .name := by
      intro hkind
      cases form with
      | name => exact hname rfl
      | opening group => cases group <;> cases hkind
      | closing found => cases found <;> cases hkind
      | _ => cases hkind
    rw [plain_of_recognise hkind hfound]
    simp [hname]

-- Whatever the level, a run with the bound is tight.
def LevelsTight (setup : Setup) (limit : Nat) (text : List Char) : Prop :=
  ∀ (level : Level) (cur : Cursor), level.depth ≤ limit →
    Scan.Tight limit (cur.enclosure level) (fun after => after.groups = level.depth)
      (scanLevel { setup with maxDepth := some limit } level cur text)
      (scanLevel setup level cur text)

section Inside

variable {limit depth : Nat} {inside : List Char}
  {bounded nested : Separators → Bool → Nat → (text : List Char) → text.length ≤ inside.length →
    Scan LevelEnd}
  (hdepth : depth ≤ limit)
  (hnested : ∀ separators stopAtColon pos text h,
    Scan.Tight limit ⟨depth + 1, false, false⟩ (fun after => after.groups = depth + 1)
      (bounded separators stopAtColon pos text h) (nested separators stopAtColon pos text h))

include hnested

theorem scanItems_tight (separators : Separators) (pos : Nat) :
    Scan.Tight limit ⟨depth + 1, false, false⟩ (fun after => after.groups = depth + 1)
      (scanItems inside bounded separators pos) (scanItems inside nested separators pos) := by
  unfold scanItems
  split
  · exact .pure rfl
  · exact (hnested _ _ _ _ _).bind fun _ _ hafter => .pure hafter

theorem scanUpper_tight (pos : Nat) (text : List Char) (h : text.length ≤ inside.length) :
    Scan.Tight limit ⟨depth + 1, false, false⟩ (fun after => after.groups = depth + 1)
      (scanUpper inside bounded pos text h) (scanUpper inside nested pos text h) := by
  unfold scanUpper
  split
  · exact .pure rfl
  · exact (hnested _ _ _ _ _).bind fun _ _ hafter => .pure hafter

include hdepth

theorem scanSubscript_tight (pos : Nat) :
    Scan.Tight limit ⟨depth + 1, false, false⟩ (fun after => after.groups = depth + 1)
      (scanSubscript inside bounded pos) (scanSubscript inside nested pos) := by
  unfold scanSubscript
  dsimp only
  split
  · exact .error rfl
  · split
    · refine (Scan.Tight.emit hdepth).bind ?_
      rintro _ _ rfl
      exact (scanUpper_tight hnested _ _ _).bind fun _ _ hafter => .pure hafter
    · refine (hnested _ _ _ _ _).bind fun lower after hafter => ?_
      split
      · exact .pure hafter
      · obtain ⟨groups, textual, verbatim⟩ := after
        obtain rfl : groups = depth + 1 := hafter
        refine (Scan.Tight.emit hdepth).bind ?_
        rintro _ _ rfl
        exact (scanUpper_tight hnested _ _ _).bind fun _ _ hafter => .pure hafter

omit hnested in
theorem scanVerbatim_tight (pos : Nat) :
    Scan.Tight limit ⟨depth + 1, false, true⟩ (fun after => after.groups = depth + 1)
      (scanVerbatim pos inside) (scanVerbatim pos inside) := by
  unfold scanVerbatim
  dsimp only
  split
  · exact .pure rfl
  · refine (Scan.Tight.emit hdepth).bind ?_
    rintro _ _ rfl
    exact .pure rfl

theorem scanInside_tight (group : Group) (callee : Callee) (pos : Nat) :
    Scan.Tight limit ⟨depth + 1, false, decide (group = .call) && decide (callee = .textual)⟩
      (fun after => after.groups = depth + 1) (scanInside inside bounded group callee pos)
      (scanInside inside nested group callee pos) := by
  cases group with
  | subExpr =>
      exact (hnested _ _ _ _ _).bind fun _ _ hafter => .pure hafter
  | substArgs | list | dict =>
      exact (scanItems_tight hnested _ pos).bind fun _ _ hafter => .pure hafter
  | subscript =>
      exact (scanSubscript_tight hdepth hnested pos).bind fun _ _ hafter => .pure hafter
  | call =>
      cases callee with
      | textual => exact (scanVerbatim_tight hdepth pos).bind fun _ _ hafter => .pure hafter
      | plain | binder =>
          exact (scanItems_tight hnested _ pos).bind fun _ _ hafter => .pure hafter

end Inside

theorem endLevel_tight {limit : Nat} {level : Level} {cur : Cursor} {left : Nat}
    (hdepth : level.depth ≤ limit) :
    Scan.Tight limit (cur.enclosure level) (fun after => after.groups = level.depth)
      (endLevel level cur left) (endLevel level cur left) := by
  unfold endLevel
  split
  · exact .error rfl
  · cases level.top with
    | true =>
        refine (Scan.Tight.emit hdepth).bind ?_
        rintro _ _ rfl
        exact .pure rfl
    | false => exact .pure rfl

section Levels

variable {setup : Setup} {limit : Nat} {level : Level} {cur : Cursor}

theorem scanNested_tight {inner : List Char} (ih : LevelsTight setup limit inner)
    (separators : Separators) (stopAtColon : Bool) (start : Nat) :
    Scan.Tight limit ⟨level.depth + 1, false, false⟩ (fun after => after.groups = level.depth + 1)
      (scanNested { setup with maxDepth := some limit } level separators stopAtColon start inner)
      (scanNested setup level separators stopAtColon start inner) := by
  intro ending hending
  obtain ⟨_, henter, hlevel⟩ := Scan.exists_of_bind hending
  have hnested : scanNested setup level separators stopAtColon start inner =
      scanLevel setup ⟨false, stopAtColon, level.depth + 1⟩ (Cursor.start start separators)
        inner := by
    rw [scanNested, Scan.bind_of_ok henter, enter_yields _ henter]
    rfl
  rw [hnested]
  by_cases hover : limit ≤ level.depth
  · -- The level has a first token, and that token is too deep.
    right
    obtain ⟨houtlined, -⟩ := (outlined_rules setup).yields _ _ _ _ hlevel
    obtain ⟨tokens, units, last, htokens, hunits, hends, -⟩ :=
      houtlined fun hcallee => by cases hcallee
    rw [show tokens ++ Level.endTokens ⟨false, stopAtColon, level.depth + 1⟩ ending.stop
      ending.items = tokens by simp [Level.endTokens]] at htokens
    have hdeep := hunits.groups_le_nestingFrom hends
      (show (⟨level.depth + 1, false, false⟩ : Enclosure).verbatim = false from rfl)
    rw [htokens]
    refine ⟨Nat.lt_of_lt_of_le (Nat.lt_succ_of_le hover) hdeep,
      ⟨start, .overflow .nesting limit⟩, ?_, _, _, rfl⟩
    simp only [scanNested, enter, if_pos hover]
    rfl
  · have hbounded : scanNested { setup with maxDepth := some limit } level separators stopAtColon
        start inner = scanLevel { setup with maxDepth := some limit }
          ⟨false, stopAtColon, level.depth + 1⟩ (Cursor.start start separators) inner := by
      simp only [scanNested, enter, if_neg hover]
      rfl
    rw [hbounded]
    exact ih ⟨false, stopAtColon, level.depth + 1⟩ (Cursor.start start separators)
      (Nat.lt_of_not_le hover) ending hlevel

theorem scanMove_tight {c : Char} {rest : List Char}
    (ih : ∀ text : List Char, text.length ≤ rest.length → LevelsTight setup limit text)
    (hdepth : level.depth ≤ limit) {move : Move}
    (hmove : nextMove setup level cur (c :: rest) = .ok move) :
    Scan.Tight limit (cur.enclosure level) (fun after => after.groups = level.depth)
      (scanMove { setup with maxDepth := some limit } level cur c rest move)
      (scanMove setup level cur c rest move) := by
  have hshorter : ∀ count, (rest.drop count).length ≤ rest.length := by
    intro count
    simp
  cases move with
  | finish => exact endLevel_tight hdepth
  | token form extra next =>
      obtain ⟨-, -, hfound⟩ := mem_successors_of_nextMove hmove (by simp)
      have hplain := (takes_of_recognise hfound).plain
      refine (Scan.Tight.emit ?_).bind ?_
      · rw [Enclosure.insides_of_isPlain hplain rfl]
        exact hdepth
      · rintro _ _ rfl
        rw [Enclosure.push_of_isPlain hplain]
        have hlevel := ih _ (hshorter extra) level
          { next with pos := cur.pos + byteLength (c :: rest.take extra), state := form.kind } hdepth
        simp only [Cursor.enclosure, textual_of_nextMove hmove] at hlevel
        exact hlevel
  | binder stem extra =>
      refine (Scan.Tight.emit hdepth).bind ?_
      rintro _ _ rfl
      refine (Scan.Tight.emit hdepth).bind ?_
      rintro _ _ rfl
      exact ih _ (hshorter extra) level _ hdepth
  | group group =>
      simp only [scanMove]
      split
      · exact .error rfl
      · rename_i before hmatch
        refine (Scan.Tight.emit hdepth).bind ?_
        rintro _ _ rfl
        refine (scanInside_tight hdepth ?_ group cur.callee (cur.pos + 1)).bind ?_
        · intro separators stopAtColon start inner hinner
          rw [List.length_take] at hinner
          exact scanNested_tight (ih inner (by omega)) separators stopAtColon start
        · rintro closing ⟨groups, textual, verbatim⟩ hafter
          obtain rfl : groups = level.depth + 1 := hafter
          refine (Scan.Tight.emit hdepth).bind ?_
          rintro _ _ rfl
          exact ih _ (hshorter before.length) level _ hdepth

-- The bound on the nesting is exact, whatever the nesting was bounded by before.
theorem levelsTight (setup : Setup) (limit : Nat) (text : List Char) :
    LevelsTight setup limit text := by
  induction text using scan_induction with
  | blank skipped hskipped =>
      intro level cur hdepth
      rw [scanLevel_skip hskipped, scanLevel_skip hskipped, scanLevel_end, scanLevel_end]
      split
      · exact endLevel_tight hdepth
      · exact .error rfl
  | step skipped c rest hskipped hc ih =>
      intro level cur hdepth
      rw [scanLevel_skip hskipped, scanLevel_skip hskipped, scanLevel_cons hc, scanLevel_cons hc]
      have hsame : nextMove { setup with maxDepth := some limit } level
          { cur with pos := cur.pos + byteLength skipped } (c :: rest) =
          nextMove setup level { cur with pos := cur.pos + byteLength skipped } (c :: rest) := rfl
      rw [hsame]
      cases hmove : nextMove setup level { cur with pos := cur.pos + byteLength skipped }
          (c :: rest) with
      | error e => exact .error rfl
      | ok move => exact scanMove_tight ih hdepth hmove

end Levels

-- A bound on the number of tokens is exact, and it is the first token behind it that fails.
theorem tokenize_maxTokens {setup : Setup} {text : List Char} {tokenized : Tokenized}
    (h : tokenize setup none text = .ok tokenized) (limit : Nat) :
    (tokenized.tokens.length ≤ limit → tokenize setup (some limit) text = .ok tokenized) ∧
      ∀ token, tokenized.tokens[limit]? = some token →
        tokenize setup (some limit) text = .error ⟨token.start, .overflow .tokens limit⟩ := by
  obtain ⟨ending, hout, rfl⟩ := scanText_of_tokenize h
  refine ⟨fun hle => ?_, fun token htoken => ?_⟩
  · simp only [tokenize_eq, Scan.limit_of_le hle, hout]
    rfl
  · simp only [tokenize_eq, Scan.limit_of_token htoken]
    rfl

-- A text that has tokens has the same tokens under other bounds if these allow for them, and fails
-- for the bounds if they do not.
theorem tokenize_bounds {setup : Setup} {maxTokens : Option Nat} {text : List Char}
    {tokenized : Tokenized} (h : tokenize setup maxTokens text = .ok tokenized) (depth limit : Nat) :
    (tokenized.tokens.length ≤ limit ∧ nesting tokenized.tokens ≤ depth ∧
      tokenize { setup with maxDepth := some depth } (some limit) text = .ok tokenized) ∨
    (¬(tokenized.tokens.length ≤ limit ∧ nesting tokenized.tokens ≤ depth) ∧
      ∃ e, tokenize { setup with maxDepth := some depth } (some limit) text = .error e ∧
        e.IsOverflow) := by
  obtain ⟨ending, hout, rfl⟩ := scanText_of_tokenize h
  have htight : Scan.Tight depth ⟨0, false, false⟩ (fun after => after.groups = 0)
      (scanText { setup with maxDepth := some depth } text) (scanText setup text) := by
    rw [scanText_eq, scanText_eq]
    exact levelsTight setup depth text ⟨true, false, 0⟩ _ (Nat.zero_le _)
  rcases htight ending hout with ⟨hle, hsame, -⟩ | ⟨hlt, e, he, hoverflow⟩
  · by_cases hlimit : (scanText setup text).tokens.length ≤ limit
    · left
      refine ⟨hlimit, hle, ?_⟩
      simp only [tokenize_eq, hsame, Scan.limit_of_le hlimit, hout]
      rfl
    · right
      refine ⟨fun hboth => hlimit hboth.1, ?_⟩
      have hget := List.getElem?_eq_getElem (Nat.lt_of_not_le hlimit)
      simp only [tokenize_eq, hsame, Scan.limit_of_token hget]
      exact ⟨_, rfl, _, _, rfl⟩
  · right
    refine ⟨fun hboth => absurd hboth.2 (Nat.not_le_of_lt hlt), ?_⟩
    obtain ⟨e', he', hoverflow'⟩ := Scan.limit_of_overflow he hoverflow limit
    refine ⟨e', ?_, hoverflow'⟩
    simp only [tokenize_eq, he']
    rfl

end FormulaCode
