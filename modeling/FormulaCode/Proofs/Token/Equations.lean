import FormulaCode.Proofs.Token.Scan

namespace FormulaCode

section Outcome

variable {run : Except ε α}

theorem bind_eq_ok {next : α → Except ε β} {b : β} (h : run >>= next = .ok b) :
    ∃ a, run = .ok a ∧ next a = .ok b := by
  cases run with
  | error e => cases h
  | ok a => exact ⟨a, rfl, h⟩

-- A computation that is seen to succeed has an answer.
theorem exists_ok (h : run.isOk = true) : ∃ a, run = .ok a := by
  cases run with
  | error e => cases h
  | ok a => exact ⟨a, rfl⟩

theorem exists_error (h : run.isOk = false) : ∃ e, run = .error e := by
  cases run with
  | error e => exact ⟨e, rfl⟩
  | ok a => cases h

theorem exists_ok_of_map {f : α → β} {b : β} (h : run.toOption.map f = some b) :
    ∃ a, run = .ok a ∧ f a = b := by
  cases run with
  | error e => cases h
  | ok a => exact ⟨a, rfl, Option.some.inj h⟩

end Outcome

namespace Scan

-- A run behind tokens that are there already.
def after (tokens : List Token) (run : Scan α) : Scan α :=
  ⟨tokens ++ run.tokens, run.outcome⟩

theorem after_after (tokens more : List Token) (run : Scan α) :
    (run.after more).after tokens = run.after (tokens ++ more) := by
  simp [after]

theorem pure_bind (a : α) (next : α → Scan β) : ((pure a : Scan α) >>= next) = next a := rfl

theorem emit_bind (start : Nat) (text : List Char) (form : Form) (next : Unit → Scan β) :
    (emit start text form >>= next) = (next ()).after [⟨start, text, form⟩] := rfl

theorem after_bind (tokens : List Token) (run : Scan α) (next : α → Scan β) :
    (run.after tokens >>= next) = (run >>= next).after tokens := by
  change Scan.bind (run.after tokens) next = (Scan.bind run next).after tokens
  simp only [Scan.bind, after]
  cases run.outcome with
  | error e => rfl
  | ok a => simp

theorem bind_of_ok {run : Scan α} {a : α} (h : run.outcome = .ok a) (next : α → Scan β) :
    (run >>= next) = (next a).after run.tokens := by
  change Scan.bind run next = _
  simp only [Scan.bind, h, after]

theorem bind_of_error {run : Scan α} {e : LexError} (h : run.outcome = .error e)
    (next : α → Scan β) : (run >>= next) = ⟨run.tokens, .error e⟩ := by
  change Scan.bind run next = _
  simp only [Scan.bind, h]

theorem exists_of_bind {run : Scan α} {next : α → Scan β} {b : β}
    (h : (run >>= next).outcome = .ok b) :
    ∃ a, run.outcome = .ok a ∧ (next a).outcome = .ok b := by
  cases hrun : run.outcome with
  | error e =>
      rw [bind_of_error hrun] at h
      cases h
  | ok a =>
      rw [bind_of_ok hrun] at h
      exact ⟨a, rfl, h⟩

end Scan

-- How the inside of a group is read.
def scanNested (setup : Setup) (level : Level) (separators : Separators) (stopAtColon : Bool)
    (start : Nat) (inner : List Char) : Scan LevelEnd := do
  enter setup level start
  scanLevel setup ⟨false, stopAtColon, level.depth + 1⟩ (Cursor.start start separators) inner

-- What becomes of a move at the character `c`.
def scanMove (setup : Setup) (level : Level) (cur : Cursor) (c : Char) (rest : List Char) :
    Move → Scan LevelEnd
  | .finish => endLevel level cur (rest.length + 1)
  | .token form extra next => do
      let lexeme := c :: rest.take extra
      Scan.emit cur.pos lexeme form
      scanLevel setup level { next with pos := cur.pos + byteLength lexeme, state := form.kind }
        (rest.drop extra)
  | .binder stem extra => do
      let word := c :: rest.take extra
      Scan.emit cur.pos (word.take stem) .name
      Scan.emit (cur.pos + byteLength (word.take stem)) (word.drop stem) (.string true)
      scanLevel setup level
        { cur with pos := cur.pos + byteLength word, state := .name, callee := .binder }
        (rest.drop extra)
  | .group group =>
      match matching? (· = group.opener) (· = group.closer) (c :: rest) with
      | none => Scan.fail cur.pos (.fault (.mismatchedBracket group.opener group.closer))
      | some before => do
          let close := cur.pos + byteLength before
          Scan.emit cur.pos [group.opener] (.opening group)
          let closing ← scanInside (rest.take (before.length - 1))
            (fun separators stopAtColon start inner _ =>
              scanNested setup level separators stopAtColon start inner)
            group cur.callee (cur.pos + 1)
          Scan.emit close [group.closer] (.closing closing)
          scanLevel setup level
            { cur with pos := close + 1, state := group.kind, callee := .plain }
            (rest.drop before.length)

-- A level is read move by move, with what is between the tokens skipped.
theorem scanLevel_eq (setup : Setup) (level : Level) (cur : Cursor) (text : List Char) :
    scanLevel setup level cur text =
      let cur := { cur with pos := cur.pos + byteLength (text.takeWhile isSkipped) }
      match text.dropWhile isSkipped with
      | [] =>
          if cur.candidates.contains .finish then endLevel level cur 0
          else Scan.fail cur.pos (.fault (.expected cur.candidates))
      | c :: rest =>
          Scan.ofExcept (nextMove setup level cur (c :: rest)) >>= scanMove setup level cur c rest := by
  rw [scanLevel]
  split
  · rename_i h
    simp only [h]
  · rename_i c rest h
    simp only [h]
    cases nextMove setup level _ (c :: rest) with
    | error e => rfl
    | ok move => cases move <;> rfl

-- Induction along the steps of the tokenizer: some characters are skipped, and then at least one
-- is taken.
@[elab_as_elim]
theorem scan_induction {motive : List Char → Prop}
    (blank : ∀ skipped, (∀ c ∈ skipped, isSkipped c = true) → motive (skipped ++ []))
    (step : ∀ skipped c rest, (∀ d ∈ skipped, isSkipped d = true) → isSkipped c = false →
      (∀ shorter : List Char, shorter.length ≤ rest.length → motive shorter) →
      motive (skipped ++ c :: rest))
    (text : List Char) : motive text := by
  induction hlength : text.length using Nat.strongRecOn generalizing text with
  | ind length ih =>
      subst hlength
      have hskipped : ∀ c ∈ text.takeWhile isSkipped, isSkipped c = true :=
        List.all_eq_true.mp List.all_takeWhile
      have hsplit := List.takeWhile_append_dropWhile (p := isSkipped) (l := text)
      cases hrest : text.dropWhile isSkipped with
      | nil =>
          rw [hrest] at hsplit
          exact hsplit ▸ blank _ hskipped
      | cons c rest =>
          rw [hrest] at hsplit
          have hc : isSkipped c = false := by
            have hhead := List.head?_dropWhile_not isSkipped text
            rw [hrest] at hhead
            simpa using hhead
          have hshorter : rest.length < text.length := by
            rw [← hsplit, List.length_append, List.length_cons]
            omega
          have hstep := step _ c rest hskipped hc
            fun shorter hle => ih shorter.length (by omega) shorter rfl
          exact hsplit ▸ hstep

section Level

variable {setup : Setup} {level : Level} {cur : Cursor}

theorem endLevel_eq_ok {left : Nat} {ending : LevelEnd}
    (h : (endLevel level cur left).outcome = .ok ending) :
    ending.stop = cur.pos ∧ ending.left = left := by
  unfold endLevel at h
  split at h
  · cases h
  · cases htop : level.top <;> rw [htop] at h <;> cases h <;> exact ⟨rfl, rfl⟩

theorem scanLevel_skip {skipped : List Char} (hskipped : ∀ c ∈ skipped, isSkipped c = true)
    (text : List Char) :
    scanLevel setup level cur (skipped ++ text) =
      scanLevel setup level { cur with pos := cur.pos + byteLength skipped } text := by
  rw [scanLevel_eq, scanLevel_eq, List.takeWhile_append_of_pos hskipped,
    List.dropWhile_append_of_pos hskipped, byteLength_append]
  simp only [Nat.add_assoc]

theorem scanLevel_space (text : List Char) :
    scanLevel setup level cur (' ' :: text) =
      scanLevel setup level { cur with pos := cur.pos + 1 } text :=
  scanLevel_skip (List.forall_mem_singleton.mpr (by decide) : ∀ c ∈ [' '], isSkipped c = true) text

theorem scanLevel_end :
    scanLevel setup level cur [] =
      if cur.candidates.contains .finish then endLevel level cur 0
      else Scan.fail cur.pos (.fault (.expected cur.candidates)) := by
  rw [scanLevel_eq]
  rfl

-- At the end of its text a level is complete.
theorem scanLevel_nil (h : .finish ∈ cur.candidates) :
    scanLevel setup level cur [] = endLevel level cur 0 := by
  rw [scanLevel_end, if_pos (List.contains_iff_mem.mpr h)]

theorem scanLevel_cons {c : Char} (hc : isSkipped c = false) (rest : List Char) :
    scanLevel setup level cur (c :: rest) =
      Scan.ofExcept (nextMove setup level cur (c :: rest)) >>=
        scanMove setup level cur c rest := by
  have hc' : ¬isSkipped c = true := by simp [hc]
  rw [scanLevel_eq, List.takeWhile_cons_of_neg hc', List.dropWhile_cons_of_neg hc']
  rfl

theorem scanLevel_token {c : Char} {rest : List Char} (hc : isSkipped c = false) {form : Form}
    {extra : Nat} {next : Cursor}
    (hmove : nextMove setup level cur (c :: rest) = .ok (.token form extra next)) :
    scanLevel setup level cur (c :: rest) =
      (scanLevel setup level
        { next with pos := cur.pos + byteLength (c :: rest.take extra), state := form.kind }
        (rest.drop extra)).after [⟨cur.pos, c :: rest.take extra, form⟩] := by
  rw [scanLevel_cons hc, hmove]
  rfl

-- The same with the token cut out of the text.
theorem scanLevel_lexeme {lexeme rest : List Char}
    (hhead : lexeme.head?.any (fun c => !isSkipped c) = true) {form : Form} {next : Cursor}
    (hmove : nextMove setup level cur (lexeme ++ rest) =
      .ok (.token form (lexeme.length - 1) next)) :
    scanLevel setup level cur (lexeme ++ rest) =
      (scanLevel setup level
        { next with pos := cur.pos + byteLength lexeme, state := form.kind } rest).after
        [⟨cur.pos, lexeme, form⟩] := by
  cases lexeme with
  | nil => cases hhead
  | cons c tail =>
      rw [List.cons_append] at hmove ⊢
      have htoken := scanLevel_token (by simpa using hhead) hmove
      simp only [List.length_cons, Nat.add_sub_cancel, List.take_left, List.drop_left] at htoken
      exact htoken

-- A group is its brackets with its inside between them, and the level goes on behind it.
def scanGroup (setup : Setup) (level : Level) (cur : Cursor) (group : Group)
    (inside rest : List Char) : Scan LevelEnd := do
  let close := cur.pos + byteLength (group.opener :: inside)
  Scan.emit cur.pos [group.opener] (.opening group)
  let closing ← scanInside inside
    (fun separators stopAtColon start inner _ =>
      scanNested setup level separators stopAtColon start inner)
    group cur.callee (cur.pos + 1)
  Scan.emit close [group.closer] (.closing closing)
  scanLevel setup level { cur with pos := close + 1, state := group.kind, callee := .plain } rest

theorem scanMove_group {group : Group} {inside rest : List Char}
    (hmatch : matching? (· = group.opener) (· = group.closer)
      (group.opener :: (inside ++ group.closer :: rest)) = some (group.opener :: inside)) :
    scanMove setup level cur group.opener (inside ++ group.closer :: rest) (.group group) =
      scanGroup setup level cur group inside rest := by
  have htake : (inside ++ group.closer :: rest).take ((group.opener :: inside).length - 1) =
      inside := by simp
  have hdrop : (inside ++ group.closer :: rest).drop (group.opener :: inside).length = rest := by
    simp
  simp only [scanMove, hmatch, hdrop]
  generalize (inside ++ group.closer :: rest).take ((group.opener :: inside).length - 1) = taken
    at htake
  subst htake
  rfl

theorem scanGroup_eq_after {group : Group} {inside : List Char} {tokens : List Token}
    {closing : Closing}
    (hinside : scanInside inside
      (fun separators stopAtColon start inner _ =>
        scanNested setup level separators stopAtColon start inner)
      group cur.callee (cur.pos + 1) = (pure closing : Scan Closing).after tokens)
    (rest : List Char) :
    scanGroup setup level cur group inside rest =
      (scanLevel setup level
        { cur with pos := cur.pos + byteLength (group.opener :: inside) + 1, state := group.kind,
                   callee := .plain } rest).after
        (⟨cur.pos, [group.opener], .opening group⟩ :: tokens ++
          [⟨cur.pos + byteLength (group.opener :: inside), [group.closer], .closing closing⟩]) := by
  simp only [scanGroup, hinside, Scan.emit_bind, Scan.after_bind, Scan.pure_bind, Scan.after_after,
    List.cons_append, List.nil_append]

theorem scanLevel_group {group : Group} {inside rest : List Char}
    (hc : isSkipped group.opener = false)
    (hmove : nextMove setup level cur (group.opener :: (inside ++ group.closer :: rest)) =
      .ok (.group group))
    (hmatch : matching? (· = group.opener) (· = group.closer)
      (group.opener :: (inside ++ group.closer :: rest)) = some (group.opener :: inside))
    {tokens : List Token} {closing : Closing}
    (hinside : scanInside inside
      (fun separators stopAtColon start inner _ =>
        scanNested setup level separators stopAtColon start inner)
      group cur.callee (cur.pos + 1) = (pure closing : Scan Closing).after tokens) :
    scanLevel setup level cur (group.opener :: (inside ++ group.closer :: rest)) =
      (scanLevel setup level
        { cur with pos := cur.pos + byteLength (group.opener :: inside) + 1, state := group.kind,
                   callee := .plain } rest).after
        (⟨cur.pos, [group.opener], .opening group⟩ :: tokens ++
          [⟨cur.pos + byteLength (group.opener :: inside), [group.closer], .closing closing⟩]) := by
  rw [scanLevel_cons hc, hmove]
  change scanMove setup level cur _ _ (.group group) = _
  rw [scanMove_group hmatch, scanGroup_eq_after hinside]

end Level

end FormulaCode
