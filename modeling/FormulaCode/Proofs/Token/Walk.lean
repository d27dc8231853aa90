import FormulaCode.Proofs.Token.Nesting
import FormulaCode.Proofs.Token.Tiling

namespace FormulaCode

section Offsets

variable {setup : Setup} {level : Level} {cur : Cursor} {text : List Char} {e : LexError}

theorem Cursor.offset_of_fail {fault : Fault} (h : (cur.fail fault : Except LexError α) = .error e) :
    e.offset = cur.pos := by
  cases h
  rfl

-- Whatever is looked for at the cursor, it is there that it is missed.
theorem offset_of_recognise {kind : TokenKind} (h : recognise setup level cur text kind = .error e) :
    e.offset = cur.pos := by
  cases kind with
  | stringLiteral =>
      simp only [recognise, Cursor.stringToken] at h
      split at h
      · cases h
      · exact Cursor.offset_of_fail h
      · cases h
  | binaryOp =>
      simp only [recognise, Cursor.binaryMove] at h
      split at h
      · unfold Cursor.comma at h
        split at h
        · cases h
        · split at h
          · cases h
          · cases h
          · cases h
          · exact Cursor.offset_of_fail h
          · cases h
      · split at h <;> cases h
  | ternaryOp =>
      simp only [recognise, Cursor.ternaryMove] at h
      split at h
      · cases h
      · split at h
        · unfold Cursor.colon at h
          split at h
          · cases h
          · exact Cursor.offset_of_fail h
          · cases h
          · split at h
            · cases h
            · exact Cursor.offset_of_fail h
        · cases h
  | _ => cases h

theorem exists_of_findSomeM? {f : α → Except ε (Option β)} {xs : List α} {e : ε}
    (h : xs.findSomeM? f = .error e) : ∃ x, f x = .error e := by
  induction xs with
  | nil => cases h
  | cons x rest ih =>
      simp only [List.findSomeM?, bind, Except.bind] at h
      split at h
      · cases h
        exact ⟨x, by assumption⟩
      · split at h
        · cases h
        · exact ih h

theorem offset_of_nextMove (h : nextMove setup level cur text = .error e) : e.offset = cur.pos := by
  simp only [nextMove, bind, Except.bind] at h
  split at h
  · rename_i hfound
    cases h
    obtain ⟨kind, hkind⟩ := exists_of_findSomeM? hfound
    exact offset_of_recognise hkind
  · split at h
    · cases h
    · exact Cursor.offset_of_fail h

end Offsets

-- What a token makes of a bracket behind it. The name of a bound variable is a text of its own.
def Token.callee (token : Token) : Callee :=
  match token.form with
  | .name => if textFunctions.contains token.text then .textual else .plain
  | .string true => .binder
  | _ => .plain

-- What the last of some tokens makes of a bracket behind it.
def lastCallee : Callee → List Token → Callee
  | callee, [] => callee
  | _, token :: rest => lastCallee token.callee rest

theorem callee_of_nextMove {setup : Setup} {level : Level} {cur next : Cursor} {c : Char}
    {rest : List Char} {form : Form} {extra : Nat}
    (h : nextMove setup level cur (c :: rest) = .ok (.token form extra next)) (pos : Nat) :
    next.callee = Token.callee ⟨pos, c :: rest.take extra, form⟩ := by
  obtain ⟨-, -, hfound⟩ := mem_successors_of_nextMove h (by simp)
  have hplain : form.kind ≠ .name → next.callee = .plain := fun hkind =>
    plain_of_recognise hkind hfound
  cases form with
  | name =>
      have htextual : decide (next.callee = .textual) =
          textFunctions.contains (c :: rest.take extra) := textual_of_nextMove h
      have hbinder := (takes_of_recognise hfound).callee
      simp only [Token.callee, ← htextual, decide_eq_true_eq]
      cases hcallee : next.callee with
      | plain | textual => rfl
      | binder => exact absurd hcallee hbinder
  | string verbatim =>
      -- A literal keeps its quotes.
      have hfalse : verbatim = false := by
        simp only [Move.kind, Form.kind, recognise, Cursor.stringToken] at hfound
        split at hfound
        · cases hfound
        · cases hfound
        · cases hfound
          rfl
      subst hfalse
      exact hplain (by simp [Form.kind])
  | opening group => exact hplain (by cases group <;> simp [Form.kind, Group.kind])
  | closing found => exact hplain (by cases found <;> simp [Form.kind, Closing.group, Group.kind])
  | _ => exact hplain (by simp [Form.kind])

-- What is left of a group behind its first bracket.
def scanBehind (setup : Setup) (level : Level) (cur : Cursor) (group : Group)
    (inside rest : List Char) : Scan LevelEnd := do
  let close := cur.pos + byteLength (group.opener :: inside)
  let closing ← scanInside inside
    (fun separators stopAtColon start inner _ =>
      scanNested setup level separators stopAtColon start inner)
    group cur.callee (cur.pos + 1)
  Scan.emit close [group.closer] (.closing closing)
  scanLevel setup level { cur with pos := close + 1, state := group.kind, callee := .plain } rest

theorem Tiles.single (form : Form) {lexeme : List Char} (hne : lexeme ≠ []) (pos : Nat) :
    Tiles pos [⟨pos, lexeme, form⟩] lexeme := by
  have htoken : Tiles pos [⟨pos, lexeme, form⟩] (lexeme ++ []) := .token form hne (.done _)
  rwa [List.append_nil] at htoken

-- A run that cannot fail and comes to no group.
def Scan.Quiet (run : Scan α) : Prop :=
  (∃ a, run.outcome = .ok a) ∧ ∀ token ∈ run.tokens, ∀ group, token.form ≠ .opening group

-- What holds of every run over a text from some offset on, whether it succeeds or fails, because
-- the steps of a run keep it. Besides the run it is about what stands in front of the text.
structure WalkRules (setup : Setup)
    (motive : {α : Type} → Scan α → Callee → Nat → List Char → Prop) : Prop where
  quiet {α : Type} {run : Scan α} {callee : Callee} {pos : Nat} {text : List Char} :
    run.Quiet → motive run callee pos text
  fail {α : Type} {callee : Callee} {pos : Nat} {text : List Char} (cause : LexCause) :
    motive (Scan.fail pos cause : Scan α) callee pos text
  widen {α : Type} {run : Scan α} {callee : Callee} {pos : Nat} {blank text : List Char}
    (more : List Char) :
    motive run callee (pos + byteLength blank) text → (∀ c ∈ blank, IsSpace c) →
    motive run callee pos (blank ++ (text ++ more))
  map {α β : Type} {run : Scan α} {callee : Callee} {pos : Nat} {text : List Char} (f : α → β) :
    motive run callee pos text →
    motive (run >>= fun a => (pure (f a) : Scan β)) callee pos text
  -- The second part goes on behind all that the first has taken up.
  bind {α β : Type} {run : Scan α} {next : α → Scan β} {callee : Callee} {pos : Nat}
    {text : List Char} :
    motive run callee pos text →
    (∀ a, run.outcome = .ok a → ∃ read rest, text = read ++ rest ∧ Tiles pos run.tokens read ∧
      motive (next a) (lastCallee callee run.tokens) (pos + byteLength read) rest) →
    motive (run >>= next) callee pos text
  group {level : Level} {cur : Cursor} {group : Group} {inside rest : List Char} :
    matching? (· = group.opener) (· = group.closer)
      (group.opener :: (inside ++ group.closer :: rest)) = some (group.opener :: inside) →
    motive (scanBehind setup level cur group inside rest) .plain (cur.pos + 1)
      (inside ++ group.closer :: rest) →
    motive (scanGroup setup level cur group inside rest) cur.callee cur.pos
      (group.opener :: (inside ++ group.closer :: rest))

namespace WalkRules

variable {setup : Setup} {motive : {α : Type} → Scan α → Callee → Nat → List Char → Prop}
  (rules : WalkRules setup motive)

include rules

theorem skip {run : Scan α} {callee : Callee} {pos : Nat} {blank text whole : List Char}
    (h : motive run callee (pos + byteLength blank) text) (hblank : ∀ c ∈ blank, IsSpace c)
    (hwhole : blank ++ text = whole) : motive run callee pos whole := by
  have hwiden := rules.widen [] h hblank
  rwa [List.append_nil, hwhole] at hwiden

theorem bind_of_yields {run : Scan α} {next : α → Scan β} {callee : Callee} {pos : Nat}
    {text : List Char} {mid : List Token → α → Prop} (h : motive run callee pos text)
    (hyields : run.Yields mid)
    (hnext : ∀ tokens a, mid tokens a → ∃ read rest, text = read ++ rest ∧
      Tiles pos tokens read ∧ motive (next a) (lastCallee callee tokens) (pos + byteLength read)
        rest) :
    motive (run >>= next) callee pos text :=
  rules.bind h fun a ha => hnext run.tokens a (hyields a ha)

theorem emit {callee : Callee} {pos : Nat} {lexeme rest whole : List Char} {form : Form}
    {next : Unit → Scan α}
    (h : motive (next ()) (Token.callee ⟨pos, lexeme, form⟩) (pos + byteLength lexeme) rest)
    (hform : ∀ group, form ≠ .opening group) (hne : lexeme ≠ []) (hwhole : lexeme ++ rest = whole) :
    motive (Scan.emit pos lexeme form >>= next) callee pos whole := by
  refine rules.bind (rules.quiet ⟨⟨(), rfl⟩, List.forall_mem_singleton.mpr hform⟩) fun _ _ => ?_
  exact ⟨lexeme, rest, hwhole.symm, .single form hne pos, h⟩

section Inside

variable {inside : List Char} {depth : Nat}
  {nested : Separators → Bool → Nat → (text : List Char) → text.length ≤ inside.length →
    Scan LevelEnd}
  (hwalks : ∀ separators stopAtColon pos text h,
    motive (nested separators stopAtColon pos text h) .plain pos text)

include hwalks

theorem of_scanItems (separators : Separators) (pos : Nat) :
    motive (scanItems inside nested separators pos) .plain pos inside := by
  unfold scanItems
  split
  · exact rules.quiet ⟨⟨0, rfl⟩, List.forall_mem_nil _⟩
  · exact rules.map _ (hwalks separators false pos inside _)

-- The upper bound of a slice is read behind its mark.
theorem of_scanMark (min : Bool) {callee : Callee} (pos : Nat) (text : List Char)
    (h : text.length ≤ inside.length) :
    motive (do
      Scan.emit pos [':'] .sliceMark
      let max ← scanUpper inside nested (pos + 1) text h
      return Subscript.slice min max : Scan Subscript) callee pos (':' :: text) := by
  refine rules.emit (rules.map _ ?_) (by simp) (by simp) rfl
  unfold scanUpper
  split
  · exact rules.quiet ⟨⟨false, rfl⟩, List.forall_mem_nil _⟩
  · exact rules.map _ (hwalks .sequence false (pos + 1) text h)

variable (hnested : ∀ separators stopAtColon pos text h,
  (nested separators stopAtColon pos text h).Yields fun tokens ending =>
    Tiled ⟨false, stopAtColon, depth⟩ (Cursor.start pos separators) text tokens ending ∧
      ending.Stops ⟨false, stopAtColon, 0⟩ pos text)

include hnested

-- What stands before the colon of a slice is taken up before the rest is read.
theorem of_scanSubscript (pos : Nat) :
    motive (scanSubscript inside nested pos) .plain pos inside := by
  have hblank : ∀ c ∈ inside.takeWhile isBlank, IsSpace c := fun c hc =>
    Or.inr (List.all_eq_true.mp List.all_takeWhile c hc)
  have hinside : inside.takeWhile isBlank ++ trimStart inside = inside :=
    List.takeWhile_append_dropWhile
  unfold scanSubscript
  simp only
  split
  · rename_i htrim
    rw [htrim] at hinside
    exact rules.skip (rules.fail _) hblank hinside
  · rename_i c rest htrim
    rw [htrim] at hinside
    refine rules.skip ?_ hblank hinside
    split
    · rename_i hcolon
      subst hcolon
      exact rules.of_scanMark hwalks false _ rest _
    · refine rules.bind_of_yields (hwalks .sequence true _ _ _) (hnested .sequence true _ _ _) ?_
      rintro tokens ending ⟨htiled, hstops⟩
      split
      · rename_i hleft
        rw [← List.append_nil (c :: rest)] at htiled
        exact ⟨c :: rest, [], by simp, htiled.tiles hleft,
          rules.quiet ⟨⟨.index, rfl⟩, List.forall_mem_nil _⟩⟩
      · rename_i hleft
        rcases hstops with htop | hzero | ⟨-, bound, text, htext, hcount, hstop⟩
        · cases htop
        · exact (hleft hzero).elim
        have hdrop : (c :: rest).drop ((c :: rest).length - ending.left + 1) = text :=
          drop_of_left htext hcount
        rw [htext] at htiled
        refine ⟨bound, ':' :: text, htext, htiled.tiles hcount, ?_⟩
        rw [← hstop]
        subst hdrop
        exact rules.of_scanMark hwalks true _ _ _

theorem of_scanInside (group : Group) (callee : Callee) (pos : Nat) :
    motive (scanInside inside nested group callee pos) .plain pos inside := by
  cases group with
  | subExpr => exact rules.map _ (hwalks .sequence false pos inside _)
  | substArgs | list | dict => exact rules.map _ (rules.of_scanItems hwalks _ pos)
  | subscript => exact rules.map _ (rules.of_scanSubscript hwalks hnested pos)
  | call =>
      cases callee with
      | plain | binder => exact rules.map _ (rules.of_scanItems hwalks _ pos)
      | textual =>
          refine rules.map _ (rules.quiet ?_)
          unfold scanVerbatim
          simp only
          split
          · exact ⟨⟨0, rfl⟩, List.forall_mem_nil _⟩
          · exact ⟨⟨1, rfl⟩, List.forall_mem_singleton.mpr (by simp)⟩

end Inside

section Level

variable {level : Level} {cur : Cursor}

theorem of_endLevel {callee : Callee} {left : Nat} {text : List Char} :
    motive (endLevel level cur left) callee cur.pos text := by
  unfold endLevel
  split
  · exact rules.fail _
  · refine rules.quiet ?_
    cases level.top with
    | false => exact ⟨⟨_, rfl⟩, List.forall_mem_nil _⟩
    | true => exact ⟨⟨_, rfl⟩, List.forall_mem_singleton.mpr (by simp)⟩

theorem of_enter {callee : Callee} {pos : Nat} {text : List Char} :
    motive (enter setup level pos) callee pos text := by
  have hpure : (pure () : Scan Unit).Quiet := ⟨⟨(), rfl⟩, List.forall_mem_nil _⟩
  unfold enter
  split
  · split
    · exact rules.fail _
    · exact rules.quiet hpure
  · exact rules.quiet hpure

section Move

variable {c : Char} {rest : List Char} (ih : ∀ text : List Char, text.length ≤ rest.length →
  ∀ (level : Level) (cur : Cursor), motive (scanLevel setup level cur text) cur.callee cur.pos text)

include ih

theorem of_token {form : Form} {extra : Nat} {next : Cursor}
    (hmove : nextMove setup level cur (c :: rest) = .ok (.token form extra next)) :
    motive (scanMove setup level cur c rest (.token form extra next)) cur.callee cur.pos
      (c :: rest) := by
  obtain ⟨-, -, hfound⟩ := mem_successors_of_nextMove hmove (by simp)
  have hsplit : c :: rest.take extra ++ rest.drop extra = c :: rest := by simp
  have hform : ∀ group, form ≠ .opening group := by
    rintro group rfl
    exact (takes_of_recognise hfound).plain
  have hrest := ih (rest.drop extra) (by simp) level
    { next with pos := cur.pos + byteLength (c :: rest.take extra), state := form.kind }
  refine rules.emit ?_ hform (by simp) hsplit
  rw [← callee_of_nextMove hmove cur.pos]
  exact hrest

theorem of_binder {stem extra : Nat}
    (hmove : nextMove setup level cur (c :: rest) = .ok (.binder stem extra)) :
    motive (scanMove setup level cur c rest (.binder stem extra)) cur.callee cur.pos
      (c :: rest) := by
  obtain ⟨hstem, hvariable⟩ := binder_ne_nil hmove
  have hsplit : (c :: rest.take extra).take stem ++
      ((c :: rest.take extra).drop stem ++ rest.drop extra) = c :: rest := by
    rw [← List.append_assoc, List.take_append_drop, List.cons_append, List.take_append_drop]
  have hrest := ih (rest.drop extra) (by simp) level
    { cur with pos := cur.pos + byteLength (c :: rest.take extra), state := .name,
               callee := .binder }
  have hword : cur.pos + byteLength (c :: rest.take extra) = cur.pos +
      byteLength ((c :: rest.take extra).take stem) +
        byteLength ((c :: rest.take extra).drop stem) := by
    rw [Nat.add_assoc, ← byteLength_append, List.take_append_drop]
  refine rules.emit (rules.emit ?_ (by simp) hvariable rfl) (by simp) hstem hsplit
  rw [← hword]
  exact hrest

theorem of_behind (level : Level) (cur : Cursor) {group : Group} {inside after : List Char}
    (hrest : rest = inside ++ group.closer :: after) :
    motive (scanBehind setup level cur group inside after) .plain (cur.pos + 1) rest := by
  subst hrest
  have hwalks : ∀ separators stopAtColon start inner, inner.length ≤ inside.length →
      motive (scanNested setup level separators stopAtColon start inner) .plain start inner := by
    intro separators stopAtColon start inner hinner
    refine rules.bind_of_yields rules.of_enter enter_yields ?_
    rintro _ _ rfl
    exact ⟨[], inner, rfl, .done start, ih inner (by rw [List.length_append]; omega) _ _⟩
  have hnested : ∀ separators stopAtColon start inner, inner.length ≤ inside.length →
      (scanNested setup level separators stopAtColon start inner).Yields fun tokens ending =>
        Tiled ⟨false, stopAtColon, level.depth + 1⟩ (Cursor.start start separators) inner tokens
          ending ∧ ending.Stops ⟨false, stopAtColon, 0⟩ start inner := by
    intro separators stopAtColon start inner _
    refine enter_yields.bind ?_
    rintro _ _ rfl
    exact (tiled_rules setup).yields _ _ _
  have hinside := rules.of_scanInside hwalks hnested group cur.callee (cur.pos + 1)
  have hyields := scanInside_yields hnested group cur.callee (cur.pos + 1)
  refine rules.bind_of_yields (rules.widen (group.closer :: after) hinside (List.forall_mem_nil _))
    hyields fun tokens closing hread => ?_
  refine ⟨inside, group.closer :: after, rfl, hread.tiles, ?_⟩
  have hclose : cur.pos + 1 + byteLength inside = cur.pos + byteLength (group.opener :: inside) := by
    rw [group.byteLength_opener, Nat.add_assoc]
  have hshort : after.length ≤ (inside ++ group.closer :: after).length := by
    simp only [List.length_append, List.length_cons]
    omega
  have hafter := ih after hshort level
    { cur with pos := cur.pos + byteLength (group.opener :: inside) + 1, state := group.kind,
               callee := .plain }
  rw [hclose]
  refine rules.emit ?_ (by simp) (List.cons_ne_nil _ []) List.singleton_append
  simpa [byteLength, group.utf8Size_closer, Token.callee] using hafter

theorem of_group {group : Group}
    (hmove : nextMove setup level cur (c :: rest) = .ok (.group group)) :
    motive (scanMove setup level cur c rest (.group group)) cur.callee cur.pos (c :: rest) := by
  rcases scanMove_group_cases hmove with ⟨cause, hfail⟩ | ⟨inside, after, hmatch, hwhole, hscan⟩
  · rw [hfail]
    exact rules.fail cause
  · obtain ⟨rfl, hrest⟩ := List.cons.inj hwhole
    have hbehind := rules.of_behind ih level cur hrest
    rw [hrest] at hbehind
    rw [hscan, hwhole]
    exact rules.group hmatch hbehind

end Move

-- What the steps of a run keep holds of a whole level.
theorem of_scanLevel (level : Level) (cur : Cursor) (text : List Char) :
    motive (scanLevel setup level cur text) cur.callee cur.pos text := by
  induction text using scan_induction generalizing level cur with
  | blank skipped hskipped =>
      rw [scanLevel_skip hskipped, scanLevel_end]
      refine rules.skip ?_ (fun c hc => Or.inl (hskipped c hc)) rfl
      split
      · exact rules.of_endLevel
      · exact rules.fail _
  | step skipped c rest hskipped hc ih =>
      rw [scanLevel_skip hskipped, scanLevel_cons hc]
      refine rules.skip ?_ (fun c hc => Or.inl (hskipped c hc)) rfl
      cases hmove : nextMove setup level { cur with pos := cur.pos + byteLength skipped }
          (c :: rest) with
      | error e =>
          have hoffset : e.offset = cur.pos + byteLength skipped := offset_of_nextMove hmove
          rw [← hoffset]
          exact rules.fail e.cause
      | ok move =>
          cases move with
          | finish => exact rules.of_endLevel
          | token form extra next => exact rules.of_token ih hmove
          | binder stem extra => exact rules.of_binder ih hmove
          | group group => exact rules.of_group ih hmove

end Level

theorem of_scanText (text : List Char) :
    motive (scanText setup text) .plain 0 text := by
  rw [scanText_eq]
  exact rules.of_scanLevel _ _ _

end WalkRules

end FormulaCode
