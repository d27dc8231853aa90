import FormulaCode.Proofs.Token.Extent
import FormulaCode.Proofs.Token.Levels

namespace FormulaCode

namespace Scan

-- Whenever a run succeeds, its tokens and its answer satisfy the postcondition.
def Yields (run : Scan α) (post : List Token → α → Prop) : Prop :=
  ∀ a, run.outcome = .ok a → post run.tokens a

variable {α β : Type} {post : List Token → α → Prop}

theorem yields_pure {a : α} (h : post [] a) : (pure a : Scan α).Yields post := by
  rintro _ ⟨⟩
  exact h

theorem yields_fail {offset : Nat} {cause : LexCause} : (fail offset cause).Yields post := by
  intro _ h
  cases h

theorem yields_emit {start : Nat} {text : List Char} {form : Form} :
    (emit start text form).Yields fun tokens _ => tokens = [⟨start, text, form⟩] := by
  intro _ _
  rfl

theorem Yields.bind {first : Scan α} {next : α → Scan β} {mid : List Token → α → Prop}
    {post : List Token → β → Prop} (hfirst : first.Yields mid)
    (hnext : ∀ tokens a, mid tokens a →
      (next a).Yields fun more b => post (tokens ++ more) b) :
    (first >>= next).Yields post := by
  intro b hb
  obtain ⟨a, ha, hout⟩ := exists_of_bind hb
  rw [bind_of_ok ha]
  exact hnext first.tokens a (hfirst a ha) b hout

theorem Yields.map {run : Scan α} {f : α → β} {mid : List Token → α → Prop}
    {post : List Token → β → Prop} (h : run.Yields mid)
    (hpost : ∀ tokens a, mid tokens a → post tokens (f a)) :
    (run >>= fun a => (pure (f a) : Scan β)).Yields post := by
  refine h.bind fun tokens a ha => yields_pure ?_
  rw [List.append_nil]
  exact hpost tokens a ha

end Scan

-- A level in brackets stops at the end of its text, or before a colon if it may.
def LevelEnd.Stops (ending : LevelEnd) (level : Level) (pos : Nat) (text : List Char) : Prop :=
  level.top = true ∨ ending.left = 0 ∨ (level.stopAtColon = true ∧ ∃ before rest,
    text = before ++ ':' :: rest ∧ ending.left = rest.length + 1 ∧
      ending.stop = pos + byteLength before)

theorem LevelEnd.Stops.append {ending : LevelEnd} {level : Level} {pos : Nat} {text : List Char}
    (before : List Char) (h : ending.Stops level (pos + byteLength before) text) :
    ending.Stops level pos (before ++ text) := by
  rcases h with htop | hleft | ⟨hcolon, more, rest, rfl, hleft, hstop⟩
  · exact Or.inl htop
  · exact Or.inr (Or.inl hleft)
  · refine Or.inr (Or.inr ⟨hcolon, before ++ more, rest, by simp, hleft, ?_⟩)
    rw [hstop, byteLength_append, Nat.add_assoc]

-- What stands behind the colon at which the lower bound of a slice has stopped.
theorem drop_of_left {whole bound text : List Char} {left : Nat}
    (hwhole : whole = bound ++ ':' :: text) (hleft : left = text.length + 1) :
    whole.drop (whole.length - left + 1) = text := by
  have hcount : whole.length - left + 1 = bound.length + 1 := by
    rw [hwhole, hleft, List.length_append, List.length_cons]
    omega
  rw [hcount, hwhole, ← List.drop_drop, List.drop_left]
  rfl

-- A part of a group that is either blank or a level of its own, all of whose text is read.
inductive Part (read : Nat → List Char → List Token → LevelEnd → Prop) :
    Nat → List Char → List Token → Option LevelEnd → Prop
  | blank {pos inside} (blank : ∀ c ∈ inside, isBlank c = true) : Part read pos inside [] none
  | level {pos inside tokens ending} (level : read pos inside tokens ending)
      (left : ending.left = 0) (nonblank : inside.all isBlank = false) :
      Part read pos inside tokens (some ending)

def countItems (found : Option LevelEnd) : Nat :=
  found.elim 0 LevelEnd.items

-- A text that is one literal and nothing else.
def IsQuoted (text : List Char) : Prop :=
  ∃ literal, Literal.scan text = .found literal ∧ literal.width = text.length

-- A literal begins with a quote or a mark, and with nothing that is skipped.
theorem isSkipped_of_scan {c : Char} {rest : List Char} {l : Literal}
    (h : Literal.scan (c :: rest) = .found l) : isSkipped c = false := by
  cases hc : isSkipped c with
  | false => rfl
  | true =>
      have hquote : isQuote c = false := isQuote_of_class hc (by decide) (by decide)
      have hmark : ∀ mark ∈ ['r', 'R', 'e', 'E'], c ≠ mark := by
        intro mark hmem
        have hmarks : ['r', 'R', 'e', 'E'].all (fun mark => !isSkipped mark) = true := by decide
        exact ne_of_class hc (by simpa using List.all_eq_true.mp hmarks mark hmem)
      cases rest with
      | nil => simp [Literal.scan, hquote] at h
      | cons quote rest =>
          simp [Literal.scan, hquote, hmark 'r', hmark 'R', hmark 'e', hmark 'E'] at h

-- An index or the lower bound of a slice begins behind the blanks, with no colon.
def BeginsBound (text : List Char) : Prop :=
  ∃ c rest, text = c :: rest ∧ isBlank c = false ∧ c ≠ ':'

-- What the inside of a group is made of, where `read` says what a level of its own is made of: its
-- separators, whether it stops at a colon, its place and text, its tokens and its end.
inductive Inside (read : Separators → Bool → Nat → List Char → List Token → LevelEnd → Prop) :
    Group → Callee → Nat → List Char → List Token → Closing → Prop
  | subExpr {callee pos inside tokens ending} (level : read .sequence false pos inside tokens ending)
      (left : ending.left = 0) : Inside read .subExpr callee pos inside tokens .subExpr
  | substArgs {callee pos inside tokens found}
      (part : Part (read (.items 1) false) pos inside tokens found) :
      Inside read .substArgs callee pos inside tokens (.substArgs (countItems found))
  | list {callee pos inside tokens found}
      (part : Part (read (.items 1) false) pos inside tokens found) :
      Inside read .list callee pos inside tokens (.list (countItems found))
  | dict {callee pos inside tokens found}
      (part : Part (read (.pairs 0 true) false) pos inside tokens found) :
      Inside read .dict callee pos inside tokens (.dict (countItems found))
  | call {callee pos inside tokens found} (callee_ne : callee ≠ .textual)
      (part : Part (read (.items 1) false) pos inside tokens found) :
      Inside read .call callee pos inside tokens
        (.call (countItems found + (decide (callee = .binder)).toNat))
  | noText {pos inside} (blank : ∀ c ∈ inside, isBlank c = true) :
      Inside read .call .textual pos inside [] (.call 0)
  | text {pos before body after} (verbatim : Bool) (ne_nil : body ≠ [])
      (blank : ∀ c ∈ before ++ after, isBlank c = true)
      (trimmed : trim (before ++ (body ++ after)) = body)
      (quoted : verbatim = false ↔ IsQuoted body) :
      Inside read .call .textual pos (before ++ (body ++ after))
        [⟨pos + byteLength before, body, .string verbatim⟩] (.call 1)
  | index {callee pos before text tokens ending} (blank : ∀ c ∈ before, isBlank c = true)
      (level : read .sequence true (pos + byteLength before) text tokens ending)
      (left : ending.left = 0) (begins : BeginsBound text) :
      Inside read .subscript callee pos (before ++ text) tokens (.subscript .index)
  | upper {callee pos before text tokens found} (blank : ∀ c ∈ before, isBlank c = true)
      (part : Part (read .sequence false) (pos + byteLength before + 1) text tokens found) :
      Inside read .subscript callee pos (before ++ ':' :: text)
        (⟨pos + byteLength before, [':'], .sliceMark⟩ :: tokens)
        (.subscript (.slice false found.isSome))
  | slice {callee pos before bound text lower upper ending found}
      (blank : ∀ c ∈ before, isBlank c = true)
      (level : read .sequence true (pos + byteLength before) (bound ++ ':' :: text) lower ending)
      (left : ending.left = text.length + 1)
      (stop : ending.stop = pos + byteLength before + byteLength bound)
      (part : Part (read .sequence false) (ending.stop + 1) text upper found)
      (begins : BeginsBound (bound ++ ':' :: text)) :
      Inside read .subscript callee pos (before ++ (bound ++ ':' :: text))
        (lower ++ ⟨ending.stop, [':'], .sliceMark⟩ :: upper)
        (.subscript (.slice true found.isSome))

-- A text is trimmed of blanks on both sides.
theorem exists_trim (text : List Char) : ∃ after,
    text = text.takeWhile isBlank ++ (trim text ++ after) ∧
      ∀ c ∈ text.takeWhile isBlank ++ after, isBlank c = true := by
  have hstart : ∀ c ∈ text.takeWhile isBlank, isBlank c = true :=
    List.all_eq_true.mp List.all_takeWhile
  have hend : ∀ c ∈ (trimStart text).reverse.takeWhile isBlank, isBlank c = true :=
    List.all_eq_true.mp List.all_takeWhile
  refine ⟨((trimStart text).reverse.takeWhile isBlank).reverse, ?_, ?_⟩
  · rw [trim, trimEnd, ← List.reverse_append, List.takeWhile_append_dropWhile, List.reverse_reverse,
      trimStart, List.takeWhile_append_dropWhile]
  · intro c hc
    rcases List.mem_append.mp hc with hc | hc
    · exact hstart c hc
    · exact hend c (List.mem_reverse.mp hc)

section Inside

variable {inside : List Char}
  {nested : Separators → Bool → Nat → (text : List Char) → text.length ≤ inside.length →
    Scan LevelEnd}
  {read : Separators → Bool → Nat → List Char → List Token → LevelEnd → Prop}
  (hnested : ∀ separators stopAtColon pos text h,
    (nested separators stopAtColon pos text h).Yields fun tokens ending =>
      read separators stopAtColon pos text tokens ending ∧
        ending.Stops ⟨false, stopAtColon, 0⟩ pos text)

include hnested

theorem scanItems_yields (separators : Separators) (pos : Nat) :
    (scanItems inside nested separators pos).Yields fun tokens items => ∃ found,
      Part (read separators false) pos inside tokens found ∧ items = countItems found := by
  unfold scanItems
  split
  · rename_i hblank
    exact Scan.yields_pure ⟨none, .blank (List.all_eq_true.mp hblank), rfl⟩
  · rename_i hblank
    refine (hnested separators false pos inside _).map ?_
    rintro tokens ending ⟨hread, hstops⟩
    exact ⟨some ending, .level hread (by simpa [LevelEnd.Stops] using hstops)
      (Bool.eq_false_iff.mpr hblank), rfl⟩

theorem scanUpper_yields (pos : Nat) (text : List Char) (h : text.length ≤ inside.length) :
    (scanUpper inside nested pos text h).Yields fun tokens upper => ∃ found,
      Part (read .sequence false) pos text tokens found ∧ upper = found.isSome := by
  unfold scanUpper
  split
  · rename_i hblank
    exact Scan.yields_pure ⟨none, .blank (List.all_eq_true.mp hblank), rfl⟩
  · rename_i hblank
    refine (hnested .sequence false pos text h).map ?_
    rintro tokens ending ⟨hread, hstops⟩
    exact ⟨some ending, .level hread (by simpa [LevelEnd.Stops] using hstops)
      (Bool.eq_false_iff.mpr hblank), rfl⟩

theorem scanSubscript_yields (callee : Callee) (pos : Nat) :
    (scanSubscript inside nested pos).Yields fun tokens shape =>
      Inside read .subscript callee pos inside tokens (.subscript shape) := by
  have hblank : ∀ c ∈ inside.takeWhile isBlank, isBlank c = true :=
    List.all_eq_true.mp List.all_takeWhile
  have hinside : inside.takeWhile isBlank ++ trimStart inside = inside :=
    List.takeWhile_append_dropWhile
  unfold scanSubscript
  simp only
  split
  · exact Scan.yields_fail
  · rename_i c rest htrim
    rw [htrim] at hinside
    split
    · rename_i hcolon
      subst hcolon
      refine Scan.yields_emit.bind ?_
      rintro _ _ rfl
      refine (scanUpper_yields hnested _ _ _).map ?_
      rintro tokens _ ⟨found, hpart, rfl⟩
      have hupper : Inside read .subscript callee pos _ _ _ := .upper hblank hpart
      rw [hinside] at hupper
      exact hupper
    · rename_i hcolon
      have hbegins : BeginsBound (c :: rest) := by
        have hfirst := List.head?_dropWhile_not isBlank inside
        rw [show inside.dropWhile isBlank = c :: rest from htrim] at hfirst
        exact ⟨c, rest, rfl, by simpa using hfirst, hcolon⟩
      refine (hnested .sequence true _ _ _).bind ?_
      rintro lower ending ⟨hlower, hstops⟩
      split
      · rename_i hleft
        refine Scan.yields_pure ?_
        have hindex : Inside read .subscript callee pos _ _ _ := .index hblank hlower hleft hbegins
        rw [hinside] at hindex
        rw [List.append_nil]
        exact hindex
      · rename_i hleft
        rcases hstops with htop | hzero | ⟨-, bound, text, htext, hcount, hstop⟩
        · cases htop
        · exact (hleft hzero).elim
        -- What is left begins with the colon, which the mark takes.
        have hdrop : (c :: rest).drop ((c :: rest).length - ending.left + 1) = text :=
          drop_of_left htext hcount
        refine Scan.yields_emit.bind ?_
        rintro _ _ rfl
        refine (scanUpper_yields hnested _ _ _).map ?_
        rintro upper _ ⟨found, hpart, rfl⟩
        rw [hdrop] at hpart
        rw [htext] at hlower hinside hbegins
        have hslice : Inside read .subscript callee pos _ _ _ :=
          .slice hblank hlower hcount hstop hpart hbegins
        rw [hinside] at hslice
        exact hslice

omit hnested in
theorem scanVerbatim_yields (pos : Nat) :
    (scanVerbatim pos inside).Yields fun tokens items =>
      Inside read .call .textual pos inside tokens (.call items) := by
  obtain ⟨after, hinside, hblank⟩ := exists_trim inside
  unfold scanVerbatim
  simp only
  split
  · rename_i hempty
    refine Scan.yields_pure (.noText ?_)
    rw [List.isEmpty_iff.mp hempty, List.nil_append] at hinside
    rw [hinside]
    exact hblank
  · rename_i hne
    refine Scan.yields_emit.map ?_
    rintro _ _ rfl
    have hnil : trim inside ≠ [] := fun h => hne (List.isEmpty_iff.mpr h)
    have htrimmed : trim (inside.takeWhile isBlank ++ (trim inside ++ after)) = trim inside := by
      rw [← hinside]
    have htext : ∀ verbatim, (verbatim = false ↔ IsQuoted (trim inside)) →
        Inside read .call .textual pos inside
        [⟨pos + byteLength (inside.takeWhile isBlank), trim inside, .string verbatim⟩]
        (.call 1) := by
      intro verbatim hquoted
      have htext : Inside read .call .textual pos _ _ _ :=
        .text verbatim hnil hblank htrimmed hquoted
      rw [← hinside] at htext
      exact htext
    refine htext _ ?_
    unfold IsQuoted
    cases Literal.scan (trim inside) with
    | found literal => simp
    | _ => simp

theorem scanInside_yields (group : Group) (callee : Callee) (pos : Nat) :
    (scanInside inside nested group callee pos).Yields fun tokens found =>
      Inside read group callee pos inside tokens found := by
  have hitems := scanItems_yields hnested (.items 1) pos
  cases group with
  | subExpr =>
      refine (hnested .sequence false pos inside _).map ?_
      rintro tokens ending ⟨hread, hstops⟩
      exact .subExpr hread (by simpa [LevelEnd.Stops] using hstops)
  | substArgs =>
      refine hitems.map ?_
      rintro tokens _ ⟨found, hpart, rfl⟩
      exact .substArgs hpart
  | list =>
      refine hitems.map ?_
      rintro tokens _ ⟨found, hpart, rfl⟩
      exact .list hpart
  | dict =>
      refine (scanItems_yields hnested (.pairs 0 true) pos).map ?_
      rintro tokens _ ⟨found, hpart, rfl⟩
      exact .dict hpart
  | subscript => exact (scanSubscript_yields hnested callee pos).map fun _ _ hinside => hinside
  | call =>
      cases callee with
      | textual => exact (scanVerbatim_yields pos).map fun _ _ hinside => hinside
      | plain | binder =>
          refine hitems.map ?_
          rintro tokens _ ⟨found, hpart, rfl⟩
          exact .call (by simp) hpart

end Inside

-- The formula has a token for its end. A level in brackets has none.
def Level.endTokens (level : Level) (pos items : Nat) : List Token :=
  if level.top then [⟨pos, [], .finish items⟩] else []

theorem endLevel_yields {level : Level} {cur : Cursor} {left : Nat} :
    (endLevel level cur left).Yields fun tokens ending =>
      cur.separators.items? = some ending.items ∧ ending.stop = cur.pos ∧ ending.left = left ∧
        tokens = level.endTokens ending.stop ending.items := by
  unfold endLevel
  split
  · exact Scan.yields_fail
  · rename_i items hitems
    cases htop : level.top with
    | true =>
        refine Scan.yields_emit.map ?_
        rintro _ _ rfl
        exact ⟨hitems, rfl, rfl, by simp [Level.endTokens, htop]⟩
    | false => exact Scan.yields_pure ⟨hitems, rfl, rfl, by simp [Level.endTokens, htop]⟩

-- A level ends with its text, or where the next move is its end.
def EndsAt (setup : Setup) (level : Level) (cur : Cursor) (rest : List Char) : Prop :=
  ∀ c after, rest = c :: after → isSkipped c = false ∧ nextMove setup level cur rest = .ok .finish

-- What is to be shown so that something holds of every level that is read: it holds where the
-- level ends, and each move keeps it. A group keeps it if it holds of the levels inside.
structure ScanRules (setup : Setup)
    (motive : Level → Cursor → List Char → List Token → LevelEnd → Prop) : Prop where
  finish : ∀ {level cur items rest}, cur.callee ≠ .binder → .finish ∈ cur.state.successors →
    cur.separators.items? = some items → EndsAt setup level cur rest →
    motive level cur rest (level.endTokens cur.pos items) ⟨items, cur.pos, rest.length⟩
  skip : ∀ {level cur skipped text tokens ending}, (∀ c ∈ skipped, isSkipped c = true) →
    motive level { cur with pos := cur.pos + byteLength skipped } text tokens ending →
    motive level cur (skipped ++ text) tokens ending
  token : ∀ {level cur c rest form extra next tokens ending}, isSkipped c = false →
    nextMove setup level cur (c :: rest) = .ok (.token form extra next) →
    motive level
      { next with pos := cur.pos + byteLength (c :: rest.take extra), state := form.kind }
      (rest.drop extra) tokens ending →
    motive level cur (c :: rest) (⟨cur.pos, c :: rest.take extra, form⟩ :: tokens) ending
  binder : ∀ {level cur c rest stem extra tokens ending}, isSkipped c = false →
    nextMove setup level cur (c :: rest) = .ok (.binder stem extra) →
    motive level
      { cur with pos := cur.pos + byteLength (c :: rest.take extra), state := .name,
                 callee := .binder } (rest.drop extra) tokens ending →
    motive level cur (c :: rest)
      (⟨cur.pos, (c :: rest.take extra).take stem, .name⟩ ::
        ⟨cur.pos + byteLength ((c :: rest.take extra).take stem), (c :: rest.take extra).drop stem,
          .string true⟩ :: tokens) ending
  group : ∀ {level cur group inside rest closing tokens more ending},
    nextMove setup level cur (group.opener :: (inside ++ group.closer :: rest)) =
      .ok (.group group) →
    matching? (· = group.opener) (· = group.closer)
      (group.opener :: (inside ++ group.closer :: rest)) = some (group.opener :: inside) →
    Inside (fun separators stopAtColon pos =>
        motive ⟨false, stopAtColon, level.depth + 1⟩ (Cursor.start pos separators))
      group cur.callee (cur.pos + 1) inside tokens closing →
    motive level
      { cur with pos := cur.pos + byteLength (group.opener :: inside) + 1, state := group.kind,
                 callee := .plain } rest more ending →
    motive level cur (group.opener :: (inside ++ group.closer :: rest))
      (⟨cur.pos, [group.opener], .opening group⟩ :: tokens ++
        ⟨cur.pos + byteLength (group.opener :: inside), [group.closer], .closing closing⟩ :: more)
      ending

theorem enter_yields {setup : Setup} {level : Level} {pos : Nat} :
    (enter setup level pos).Yields fun tokens _ => tokens = [] := by
  unfold enter
  split
  · split
    · exact Scan.yields_fail
    · exact Scan.yields_pure rfl
  · exact Scan.yields_pure rfl

theorem Group.utf8Size_opener (group : Group) : group.opener.utf8Size = 1 := by
  cases group <;> decide

theorem Group.byteLength_opener (group : Group) (text : List Char) :
    byteLength (group.opener :: text) = 1 + byteLength text := by
  rw [byteLength, group.utf8Size_opener]

theorem Group.isQuote_opener (group : Group) : isQuote group.opener = false := by
  cases group <;> decide

theorem Group.isIdentChar_opener (group : Group) : isIdentChar group.opener = false := by
  cases group <;> decide

theorem Group.opener_ne_closer (group : Group) : group.opener ≠ group.closer := by
  cases group <;> decide

theorem opener_of_nextMove {setup : Setup} {level : Level} {cur : Cursor} {c : Char}
    {rest : List Char} {group : Group}
    (h : nextMove setup level cur (c :: rest) = .ok (.group group)) : c = group.opener := by
  obtain ⟨kind, -, hfound⟩ := nextMove_eq_ok h
  obtain rfl := kind_of_recognise hfound
  have hmove : Cursor.groupMove group (c :: rest) = some (.group group) := by
    cases group <;> exact Except.ok.inj hfound
  simp only [Cursor.groupMove, Option.ite_none_right_eq_some] at hmove
  simpa using hmove.1

-- The text of a group is its brackets and what stands between them.
theorem exists_inside {group : Group} {rest before : List Char}
    (h : matching? (· = group.opener) (· = group.closer) (group.opener :: rest) = some before) :
    ∃ inside, before = group.opener :: inside ∧
      rest = inside ++ group.closer :: rest.drop before.length := by
  have hsplit := matching?_split h
  cases before with
  | nil => exact (group.opener_ne_closer (List.cons.inj hsplit).1).elim
  | cons d inside =>
      obtain ⟨rfl, hrest⟩ := List.cons.inj hsplit
      exact ⟨inside, rfl, hrest⟩

-- A group that is never closed is refused at its bracket. Any other is read from one bracket to the
-- other.
theorem scanMove_group_cases {setup : Setup} {level : Level} {cur : Cursor} {c : Char}
    {rest : List Char} {group : Group}
    (h : nextMove setup level cur (c :: rest) = .ok (.group group)) :
    (∃ cause, scanMove setup level cur c rest (.group group) = Scan.fail cur.pos cause) ∨
      ∃ inside after, matching? (· = group.opener) (· = group.closer)
          (group.opener :: (inside ++ group.closer :: after)) = some (group.opener :: inside) ∧
        c :: rest = group.opener :: (inside ++ group.closer :: after) ∧
        scanMove setup level cur c rest (.group group) =
          scanGroup setup level cur group inside after := by
  obtain rfl := opener_of_nextMove h
  cases hmatch : matching? (· = group.opener) (· = group.closer) (group.opener :: rest) with
  | none =>
      refine Or.inl ⟨.fault (.mismatchedBracket group.opener group.closer), ?_⟩
      simp only [scanMove, hmatch]
  | some before =>
      obtain ⟨inside, rfl, hrest⟩ := exists_inside hmatch
      generalize rest.drop (group.opener :: inside).length = after at hrest
      subst hrest
      exact Or.inr ⟨inside, after, hmatch, rfl, scanMove_group hmatch⟩

-- A text is a token, what is read behind it and what is left.
theorem lexeme_append (c : Char) {rest read left : List Char} {extra : Nat}
    (h : rest.drop extra = read ++ left) : c :: rest = c :: rest.take extra ++ read ++ left := by
  rw [List.append_assoc, ← h, List.cons_append, List.take_append_drop]

-- A level in brackets ends before its text does only at a colon.
theorem stops_of_nextMove {setup : Setup} {level : Level} {cur : Cursor} {c : Char}
    {rest : List Char} (h : nextMove setup level cur (c :: rest) = .ok .finish) :
    level.top = true ∨ (level.stopAtColon = true ∧ c = ':') := by
  obtain ⟨-, -, hfound⟩ := mem_successors_of_nextMove h (by simp)
  simp only [Move.kind, recognise, Cursor.finishMove, List.isEmpty_cons, Bool.or_false,
    List.head?_cons, Except.ok.injEq, Option.ite_none_right_eq_some, Bool.or_eq_true,
    Bool.and_eq_true, decide_eq_true_eq, Option.some.injEq] at hfound
  rcases hfound.1 with htop | ⟨⟨hcolon, -⟩, hc⟩
  · exact Or.inl htop
  · exact Or.inr ⟨hcolon, hc⟩

section Rules

variable {setup : Setup} {motive : Level → Cursor → List Char → List Token → LevelEnd → Prop}
  (rules : ScanRules setup motive) {level : Level} {cur : Cursor} {c : Char} {rest : List Char}

include rules

theorem ScanRules.finish_yields (hc : isSkipped c = false)
    (hmove : nextMove setup level cur (c :: rest) = .ok .finish) :
    (scanMove setup level cur c rest .finish).Yields fun tokens ending =>
      motive level cur (c :: rest) tokens ending ∧ ending.Stops level cur.pos (c :: rest) := by
  obtain ⟨hcallee, hends, -⟩ := mem_successors_of_nextMove hmove (by simp)
  rintro ⟨items, stop, left⟩ hout
  obtain ⟨hitems, rfl, rfl, htokens⟩ := endLevel_yields _ hout
  change motive level cur (c :: rest) (endLevel level cur (rest.length + 1)).tokens _ ∧ _
  rw [htokens]
  have hendsAt : EndsAt setup level cur (c :: rest) := by
    rintro _ _ ⟨⟩
    exact ⟨hc, hmove⟩
  refine ⟨rules.finish hcallee hends hitems hendsAt, ?_⟩
  rcases stops_of_nextMove hmove with htop | ⟨hcolon, rfl⟩
  · exact Or.inl htop
  · exact Or.inr (Or.inr ⟨hcolon, [], rest, rfl, rfl, rfl⟩)

variable (ih : ∀ text : List Char, text.length ≤ rest.length → ∀ (level : Level) (cur : Cursor),
  (scanLevel setup level cur text).Yields fun tokens ending =>
    motive level cur text tokens ending ∧ ending.Stops level cur.pos text)

include ih

theorem ScanRules.token_yields (hc : isSkipped c = false) {form : Form} {extra : Nat} {next : Cursor}
    (hmove : nextMove setup level cur (c :: rest) = .ok (.token form extra next)) :
    (scanMove setup level cur c rest (.token form extra next)).Yields fun tokens ending =>
      motive level cur (c :: rest) tokens ending ∧ ending.Stops level cur.pos (c :: rest) := by
  refine Scan.yields_emit.bind ?_
  rintro _ _ rfl ending hout
  obtain ⟨hrest, hstops⟩ := ih (rest.drop extra) (by simp) level _ ending hout
  refine ⟨rules.token hc hmove hrest, ?_⟩
  have happend := hstops.append (c :: rest.take extra)
  rwa [List.cons_append, List.take_append_drop] at happend

theorem ScanRules.binder_yields (hc : isSkipped c = false) {stem extra : Nat}
    (hmove : nextMove setup level cur (c :: rest) = .ok (.binder stem extra)) :
    (scanMove setup level cur c rest (.binder stem extra)).Yields fun tokens ending =>
      motive level cur (c :: rest) tokens ending ∧ ending.Stops level cur.pos (c :: rest) := by
  refine Scan.yields_emit.bind ?_
  rintro _ _ rfl
  refine Scan.yields_emit.bind ?_
  rintro _ _ rfl ending hout
  obtain ⟨hrest, hstops⟩ := ih (rest.drop extra) (by simp) level _ ending hout
  refine ⟨rules.binder hc hmove hrest, ?_⟩
  have happend := hstops.append (c :: rest.take extra)
  rwa [List.cons_append, List.take_append_drop] at happend

theorem ScanRules.group_yields {group : Group}
    (hmove : nextMove setup level cur (c :: rest) = .ok (.group group)) :
    (scanMove setup level cur c rest (.group group)).Yields fun tokens ending =>
      motive level cur (c :: rest) tokens ending ∧ ending.Stops level cur.pos (c :: rest) := by
  rcases scanMove_group_cases hmove with ⟨cause, hfail⟩ | ⟨inside, after, hmatch, hwhole, hscan⟩
  · rw [hfail]
    exact Scan.yields_fail
  · obtain ⟨rfl, rfl⟩ := List.cons.inj hwhole
    rw [hscan]
    refine Scan.yields_emit.bind ?_
    rintro _ _ rfl
    have hnested : ∀ separators stopAtColon start inner, inner.length ≤ inside.length →
        (scanNested setup level separators stopAtColon start inner).Yields fun tokens ending =>
          motive ⟨false, stopAtColon, level.depth + 1⟩ (Cursor.start start separators) inner tokens
            ending ∧ ending.Stops ⟨false, stopAtColon, 0⟩ start inner := by
      intro separators stopAtColon start inner hinner
      refine enter_yields.bind ?_
      rintro _ _ rfl
      exact ih inner (by rw [List.length_append]; omega) _ _
    refine (scanInside_yields hnested group cur.callee (cur.pos + 1)).bind ?_
    intro tokens closing hinside
    refine Scan.yields_emit.bind ?_
    rintro _ _ rfl ending hout
    have hshort : after.length ≤ (inside ++ group.closer :: after).length := by
      simp only [List.length_append, List.length_cons]
      omega
    obtain ⟨hmore, hstops⟩ := ih after hshort level _ ending hout
    refine ⟨?_, ?_⟩
    · have hgroup := rules.group hmove hmatch hinside hmore
      simpa using hgroup
    · have hwidth : byteLength (group.opener :: inside ++ [group.closer]) =
          byteLength (group.opener :: inside) + 1 := by
        rw [byteLength_append]
        simp [byteLength, group.utf8Size_closer]
      have hstops : ending.Stops level
          (cur.pos + byteLength (group.opener :: inside ++ [group.closer])) after := by
        rw [hwidth]
        exact hstops
      simpa using hstops.append _

omit ih in
-- What the rules keep holds of every level that is read.
theorem ScanRules.yields (level : Level) (cur : Cursor) (text : List Char) :
    (scanLevel setup level cur text).Yields fun tokens ending =>
      motive level cur text tokens ending ∧ ending.Stops level cur.pos text := by
  induction text using scan_induction generalizing level cur with
  | blank skipped hskipped =>
      rw [scanLevel_skip hskipped, scanLevel_end]
      split
      · rename_i hfinish
        rcases Cursor.mem_candidates (List.contains_iff_mem.mp hfinish) with
          ⟨-, hcall⟩ | ⟨hcallee, hends⟩
        · cases hcall
        · rintro ⟨items, stop, left⟩ hout
          obtain ⟨hitems, rfl, rfl, htokens⟩ := endLevel_yields _ hout
          rw [htokens]
          have hendsAt : EndsAt setup level { cur with pos := cur.pos + byteLength skipped } [] := by
            rintro _ _ ⟨⟩
          exact ⟨rules.skip hskipped (rules.finish hcallee hends hitems hendsAt),
            Or.inr (Or.inl rfl)⟩
      · exact Scan.yields_fail
  | step skipped c rest hskipped hc ih =>
      have hmoves : (Scan.ofExcept (nextMove setup level
            { cur with pos := cur.pos + byteLength skipped } (c :: rest)) >>=
          scanMove setup level { cur with pos := cur.pos + byteLength skipped } c rest).Yields
          fun tokens ending =>
            motive level { cur with pos := cur.pos + byteLength skipped } (c :: rest) tokens
              ending ∧ ending.Stops level (cur.pos + byteLength skipped) (c :: rest) := by
        cases hmove : nextMove setup level { cur with pos := cur.pos + byteLength skipped }
            (c :: rest) with
        | error e =>
            intro _ hout
            cases hout
        | ok move =>
            cases move with
            | finish => exact rules.finish_yields hc hmove
            | token form extra next => exact rules.token_yields ih hc hmove
            | binder stem extra => exact rules.binder_yields ih hc hmove
            | group group => exact rules.group_yields ih hmove
      rw [scanLevel_skip hskipped, scanLevel_cons hc]
      intro ending hout
      obtain ⟨hmotive, hstops⟩ := hmoves ending hout
      exact ⟨rules.skip hskipped hmotive, hstops.append skipped⟩

omit ih in
theorem ScanRules.of_tokenize {maxTokens : Option Nat} {text : List Char} {tokenized : Tokenized}
    (h : tokenize setup maxTokens text = .ok tokenized) :
    ∃ left, motive ⟨true, false, 0⟩ (Cursor.start 0 setup.permissions.separators) text
      tokenized.tokens ⟨tokenized.items, tokenized.stop, left⟩ := by
  obtain ⟨ending, hout, rfl⟩ := scanText_of_tokenize h
  rw [scanText_eq] at hout ⊢
  exact ⟨ending.left, (rules.yields _ _ _ ending hout).1⟩

end Rules

-- The forms that come with a group, a bound variable or the end of a formula.
def Form.isCompanion : Form → Bool
  | string _ | opening _ | closing _ | sliceMark | finish _ => true
  | _ => false

section Each

variable {p : Token → Prop}
  (hcompanion : ∀ {pos text form}, form.isCompanion = true → p ⟨pos, text, form⟩)

include hcompanion

omit hcompanion in
theorem Part.forall_mem {pos : Nat} {inside : List Char} {tokens : List Token}
    {found : Option LevelEnd}
    (h : Part (fun _ _ tokens _ => ∀ token ∈ tokens, p token) pos inside tokens found) :
    ∀ token ∈ tokens, p token := by
  cases h with
  | blank => exact List.forall_mem_nil _
  | level hlevel => exact hlevel

theorem Inside.forall_mem {group : Group} {callee : Callee} {pos : Nat} {inside : List Char}
    {tokens : List Token} {found : Closing}
    (h : Inside (fun _ _ _ _ tokens _ => ∀ token ∈ tokens, p token) group callee pos inside tokens
      found) : ∀ token ∈ tokens, p token := by
  cases h with
  | subExpr hlevel | index _ hlevel => exact hlevel
  | substArgs hpart | list hpart | dict hpart | call _ hpart => exact hpart.forall_mem
  | noText => exact List.forall_mem_nil _
  | text => exact List.forall_mem_singleton.mpr (hcompanion rfl)
  | upper _ hpart => exact List.forall_mem_cons.mpr ⟨hcompanion rfl, hpart.forall_mem⟩
  | slice _ hlower _ _ hpart =>
      exact List.forall_mem_append.mpr
        ⟨hlower, List.forall_mem_cons.mpr ⟨hcompanion rfl, hpart.forall_mem⟩⟩

-- What is true of each token by itself need only be shown of those that a move makes.
theorem ScanRules.of_each {setup : Setup}
    (htoken : ∀ {level cur c rest form extra next},
      nextMove setup level cur (c :: rest) = .ok (.token form extra next) →
      p ⟨cur.pos, c :: rest.take extra, form⟩)
    (hbinder : ∀ {level cur c rest stem extra},
      nextMove setup level cur (c :: rest) = .ok (.binder stem extra) →
      p ⟨cur.pos, (c :: rest.take extra).take stem, .name⟩) :
    ScanRules setup fun _ _ _ tokens _ => ∀ token ∈ tokens, p token where
  finish := by
    intro level cur items rest _ _ _ _
    rw [Level.endTokens]
    split
    · exact List.forall_mem_singleton.mpr (hcompanion rfl)
    · exact List.forall_mem_nil _
  skip := fun _ hrest => hrest
  token := fun _ hmove hrest => List.forall_mem_cons.mpr ⟨htoken hmove, hrest⟩
  binder := fun _ hmove hrest =>
    List.forall_mem_cons.mpr ⟨hbinder hmove, List.forall_mem_cons.mpr ⟨hcompanion rfl, hrest⟩⟩
  group := fun _ _ hinside hmore => List.forall_mem_append.mpr
    ⟨List.forall_mem_cons.mpr ⟨hcompanion rfl, hinside.forall_mem hcompanion⟩,
      List.forall_mem_cons.mpr ⟨hcompanion rfl, hmore⟩⟩

end Each

end FormulaCode
