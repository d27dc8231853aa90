import FormulaCode.Proofs.Token.Equations
import FormulaCode.Proofs.Token.Recognise

namespace FormulaCode

def LevelEnd.shift (offset : Nat) (ending : LevelEnd) : LevelEnd :=
  { ending with stop := ending.stop + offset }

namespace Lexer

variable {α β : Type}

theorem within_bind (start : Nat) (run : Lexer α) (next : α → Lexer β) :
    within start (run >>= next) = within start run >>= fun a => within start (next a) := by
  funext tokens
  change EStateM.adaptExcept _ (EStateM.bind run next) tokens = EStateM.bind _ _ tokens
  simp only [within, EStateM.adaptExcept, EStateM.bind]
  cases run tokens <;> rfl

theorem within_pure (start : Nat) (a : α) : within start (pure a : Lexer α) = pure a := rfl

-- A level in a level is a level of the whole.
theorem within_within (base start : Nat) (run : Lexer α) :
    within base (within start run) = within (base + start) run := by
  funext tokens
  simp only [within, EStateM.adaptExcept]
  cases run tokens with
  | ok a after => rfl
  | error e after => simp only [LexError.rebase, Nat.add_assoc, Nat.add_comm start]

-- Records tokens that have their offsets in the whole text, until there is one too many.
def record (maxTokens : Option Nat) : List Token → Lexer Unit
  | [] => return ()
  | token :: rest => do
      push maxTokens 0 token.start token.text token.form
      record maxTokens rest

theorem record_append (maxTokens : Option Nat) (first second : List Token) :
    record maxTokens (first ++ second) =
      record maxTokens first >>= fun _ => record maxTokens second := by
  induction first with
  | nil => rfl
  | cons token first ih => simp only [List.cons_append, record, ih, bind_assoc]

end Lexer

namespace Scan

variable {α β : Type}

-- Does what a run does, as far as there is room for its tokens.
def replay (maxTokens : Option Nat) (run : Scan α) : Lexer α := do
  Lexer.record maxTokens run.tokens
  MonadExcept.ofExcept run.outcome

theorem replay_pure (maxTokens : Option Nat) (a : α) :
    (pure a : Scan α).replay maxTokens = pure a := rfl

theorem replay_bind (maxTokens : Option Nat) (first : Scan α) (next : α → Scan β) :
    (first >>= next).replay maxTokens =
      first.replay maxTokens >>= fun a => (next a).replay maxTokens := by
  change (Scan.bind first next).replay maxTokens = _
  simp only [Scan.bind]
  cases hout : first.outcome with
  | error e =>
      simp only [replay, hout, bind_assoc]
      rfl
  | ok a =>
      simp only [replay, hout, Lexer.record_append, bind_assoc]
      rfl

end Scan

namespace Lexer

variable {α β γ δ : Type} {maxTokens : Option Nat} {base : Nat}

-- A part of the work in a level that begins at `base` does what a run does that counts offsets from
-- the start of the whole text. `view` takes the answer over into that count.
def Mirrors (maxTokens : Option Nat) (base : Nat) (view : α → β) (run : Lexer α) (scan : Scan β) :
    Prop :=
  scan.replay maxTokens = within base (view <$> run)

namespace Mirrors

theorem pure (view : α → β) (a : α) :
    Mirrors maxTokens base view (Pure.pure a) (Pure.pure (view a)) := by
  rw [Mirrors, Scan.replay_pure, map_pure, within_pure]

theorem fail (view : α → β) (offset : Nat) (cause : LexCause) :
    Mirrors maxTokens base view (Lexer.fail offset cause) (Scan.fail (offset + base) cause) := by
  funext tokens
  rfl

theorem push (offset : Nat) (text : List Char) (form : Form) :
    Mirrors maxTokens base id (Lexer.push maxTokens base offset text form)
      (Scan.emit (offset + base) text form) := by
  funext tokens
  change EStateM.bind (Lexer.record maxTokens [⟨offset + base, text, form⟩]) _ tokens =
    EStateM.adaptExcept _ (EStateM.map id (Lexer.push maxTokens base offset text form)) tokens
  simp only [Lexer.record, bind, EStateM.bind, EStateM.adaptExcept, EStateM.map, Lexer.push]
  cases maxTokens.filter (· ≤ tokens.size) with
  | none => simp only [Nat.zero_add, Nat.add_comm base]; rfl
  | some limit => rfl

theorem bind {view : α → β} {result : γ → δ} {run : Lexer α} {scan : Scan β} {next : α → Lexer γ}
    {later : β → Scan δ} (h : Mirrors maxTokens base view run scan)
    (hnext : ∀ a, Mirrors maxTokens base result (next a) (later (view a))) :
    Mirrors maxTokens base result (run >>= next) (scan >>= later) := by
  unfold Mirrors at h ⊢
  rw [Scan.replay_bind, h, map_bind, within_bind, map_eq_pure_bind, within_bind, bind_assoc]
  refine congrArg _ (funext fun a => ?_)
  rw [within_pure, pure_bind]
  exact hnext a

-- The frame of a level is taken off when it ends, and the offset of its failure is put back.
theorem nested {view : α → β} {run : Lexer α} {scan : Scan β} {start : Nat}
    (h : Mirrors maxTokens (base + start) view run scan) :
    Mirrors maxTokens base view (within start run) scan := by
  have hview : view <$> within start run = within start (view <$> run) := by
    rw [map_eq_pure_bind, map_eq_pure_bind, within_bind]
    rfl
  rw [Mirrors, hview, within_within]
  exact h

end Mirrors

section Groups

variable {inside : List Char}
  {nested : Separators → Bool → Nat → (text : List Char) → text.length ≤ inside.length →
    Lexer LevelEnd}
  {scanned : Separators → Bool → Nat → (text : List Char) → text.length ≤ inside.length →
    Scan LevelEnd}
  (hnested : ∀ separators stopAtColon pos text h,
    Mirrors maxTokens base (LevelEnd.shift (base + pos)) (nested separators stopAtColon pos text h)
      (scanned separators stopAtColon (pos + base) text h))

theorem enter_mirrors (setup : Setup) (level : Level) (pos : Nat) :
    Mirrors maxTokens base id (enter setup level pos)
      (FormulaCode.enter setup level (pos + base)) := by
  unfold enter FormulaCode.enter
  cases setup.maxDepth with
  | none => exact .pure id ()
  | some limit =>
      by_cases hdeep : limit ≤ level.depth
      · simp only [if_pos hdeep]
        exact .fail id pos _
      · simp only [if_neg hdeep]
        exact .pure id ()

theorem readVerbatim_mirrors (pos : Nat) :
    Mirrors maxTokens base id (readVerbatim maxTokens base pos inside)
      (scanVerbatim (pos + base) inside) := by
  unfold readVerbatim scanVerbatim
  rw [Nat.add_right_comm pos base]
  dsimp only
  split
  · exact .pure id 0
  · exact (Mirrors.push _ _ _).bind fun _ => .pure id 1

include hnested

theorem readItems_mirrors (separators : Separators) (pos : Nat) :
    Mirrors maxTokens base id (readItems inside nested separators pos)
      (scanItems inside scanned separators (pos + base)) := by
  unfold readItems scanItems
  split
  · exact .pure id 0
  · exact (hnested _ _ _ _ _).bind fun ending => .pure id ending.items

theorem readUpper_mirrors (pos : Nat) (text : List Char) (h : text.length ≤ inside.length) :
    Mirrors maxTokens base id (readUpper inside nested pos text h)
      (scanUpper inside scanned (pos + base) text h) := by
  unfold readUpper scanUpper
  split
  · exact .pure id false
  · exact (hnested _ _ _ _ _).bind fun _ => .pure id true

-- The lower bound of a slice says where it stopped in its own count.
theorem readSubscript_mirrors (pos : Nat) :
    Mirrors maxTokens base id (readSubscript maxTokens base inside nested pos)
      (scanSubscript inside scanned (pos + base)) := by
  unfold readSubscript
  dsimp only
  -- The two matches are on one text, but of two types: each is opened while the other is closed.
  split
  · rename_i htrim
    unfold scanSubscript
    rw [Nat.add_right_comm pos base]
    dsimp only
    split
    · exact .fail id _ _
    · rename_i htrim'
      cases htrim.symm.trans htrim'
  · rename_i c rest htrim
    generalize hread : (if c = ':' then _ else _ : Lexer Subscript) = read
    unfold scanSubscript
    rw [Nat.add_right_comm pos base]
    dsimp only
    split
    · rename_i htrim'
      cases htrim.symm.trans htrim'
    · rename_i htrim'
      cases htrim.symm.trans htrim'
      subst hread
      split
      · refine (Mirrors.push _ _ _).bind fun _ => ?_
        rw [Nat.add_right_comm _ base]
        exact (readUpper_mirrors hnested _ _ _).bind fun _ => .pure id _
      · refine (hnested _ _ _ _ _).bind fun lower => ?_
        have hleft : ∀ offset, (lower.shift offset).left = lower.left := fun _ => rfl
        have hstop : ∀ first, (lower.shift (base + first)).stop = first + lower.stop + base := by
          intro first
          simp only [LevelEnd.shift]
          omega
        simp only [hleft, hstop]
        split
        · exact .pure id _
        · refine (Mirrors.push _ _ _).bind fun _ => ?_
          rw [Nat.add_right_comm _ base]
          exact (readUpper_mirrors hnested _ _ _).bind fun _ => .pure id _

theorem readInside_mirrors (group : Group) (callee : Callee) (pos : Nat) :
    Mirrors maxTokens base id (readInside maxTokens base inside nested group callee pos)
      (scanInside inside scanned group callee (pos + base)) := by
  have hitems := readItems_mirrors hnested
  cases group with
  | subExpr => exact (hnested _ _ _ _ _).bind fun _ => .pure id _
  | substArgs | list | dict => exact (hitems _ pos).bind fun _ => .pure id _
  | subscript => exact (readSubscript_mirrors hnested pos).bind fun _ => .pure id _
  | call =>
      cases callee with
      | textual => exact (readVerbatim_mirrors pos).bind fun _ => .pure id _
      | plain | binder => exact (hitems _ pos).bind fun _ => .pure id _

end Groups

section Levels

variable {setup : Setup} {level : Level} {cur : Cursor}

theorem endLevel_mirrors (left : Nat) :
    Mirrors maxTokens base (LevelEnd.shift base) (endLevel maxTokens base level cur left)
      (FormulaCode.endLevel level (cur.shift base) left) := by
  have hseparators : (cur.shift base).separators = cur.separators := rfl
  unfold endLevel FormulaCode.endLevel
  rw [hseparators]
  cases cur.separators.items? with
  | none => exact .fail _ _ _
  | some items =>
      cases level.top with
      | false => exact .pure (LevelEnd.shift base) _
      | true => exact (Mirrors.push _ _ _).bind fun _ => .pure (LevelEnd.shift base) _

-- Nothing is left of the text.
theorem atEnd_mirrors :
    Mirrors maxTokens base (LevelEnd.shift base)
      (if cur.candidates.contains .finish then endLevel maxTokens base level cur 0
        else fail cur.pos (.fault (.expected cur.candidates)))
      (if (cur.shift base).candidates.contains .finish then
          FormulaCode.endLevel level (cur.shift base) 0
        else Scan.fail (cur.shift base).pos (.fault (.expected (cur.shift base).candidates))) := by
  by_cases hfinish : cur.candidates.contains .finish = true
  · rw [if_pos hfinish, if_pos (by rwa [Cursor.candidates_shift])]
    exact endLevel_mirrors 0
  · rw [if_neg hfinish, if_neg (by rwa [Cursor.candidates_shift])]
    exact .fail _ _ _

-- What becomes of a move at the character `c`.
def readMove (setup : Setup) (maxTokens : Option Nat) (base : Nat) (level : Level) (cur : Cursor)
    (c : Char) (rest : List Char) : Move → Lexer LevelEnd
  | .finish => endLevel maxTokens base level cur (rest.length + 1)
  | .token form extra next => do
      let lexeme := c :: rest.take extra
      push maxTokens base cur.pos lexeme form
      readLevel setup maxTokens base level
        { next with pos := cur.pos + byteLength lexeme, state := form.kind } (rest.drop extra)
  | .binder stem extra => do
      let word := c :: rest.take extra
      push maxTokens base cur.pos (word.take stem) .name
      push maxTokens base (cur.pos + byteLength (word.take stem)) (word.drop stem) (.string true)
      readLevel setup maxTokens base level
        { cur with pos := cur.pos + byteLength word, state := .name, callee := .binder }
        (rest.drop extra)
  | .group group =>
      match matching? (· = group.opener) (· = group.closer) (c :: rest) with
      | none => fail cur.pos (.fault (.mismatchedBracket group.opener group.closer))
      | some before => do
          let close := cur.pos + byteLength before
          push maxTokens base cur.pos [group.opener] (.opening group)
          let closing ← readInside maxTokens base (rest.take (before.length - 1))
            (fun separators stopAtColon start inner _ => do
              enter setup level start
              within start (readLevel setup maxTokens (base + start)
                ⟨false, stopAtColon, level.depth + 1⟩ (Cursor.start 0 separators) inner))
            group cur.callee (cur.pos + 1)
          push maxTokens base close [group.closer] (.closing closing)
          readLevel setup maxTokens base level
            { cur with pos := close + 1, state := group.kind, callee := .plain }
            (rest.drop before.length)

theorem readLevel_eq (text : List Char) :
    readLevel setup maxTokens base level cur text =
      let cur := { cur with pos := cur.pos + byteLength (text.takeWhile isSkipped) }
      match text.dropWhile isSkipped with
      | [] =>
          if cur.candidates.contains .finish then endLevel maxTokens base level cur 0
          else fail cur.pos (.fault (.expected cur.candidates))
      | c :: rest =>
          MonadExcept.ofExcept (nextMove setup level cur (c :: rest)) >>=
            readMove setup maxTokens base level cur c rest := by
  rw [readLevel]
  split
  · rename_i h
    simp only [h]
  · rename_i c rest h
    simp only [h]
    cases nextMove setup level _ (c :: rest) with
    | error e => rfl
    | ok move => cases move <;> rfl

theorem nextMove_mirrors (text : List Char) :
    Mirrors maxTokens base (Move.shift base) (MonadExcept.ofExcept (nextMove setup level cur text))
      (Scan.ofExcept (nextMove setup level (cur.shift base) text)) := by
  have hlevel : level.deepen 0 = level := by rw [Level.deepen, Nat.zero_add]
  have hshift := @nextMove_shift setup level cur text setup.maxDepth base 0
  rw [hlevel] at hshift
  rw [hshift]
  cases nextMove setup level cur text with
  | error e => exact .fail _ e.offset e.cause
  | ok move => exact .pure (Move.shift base) move

theorem readMove_mirrors {c : Char} {rest : List Char}
    (ih : ∀ text : List Char, text.length ≤ rest.length → ∀ base level cur,
      Mirrors maxTokens base (LevelEnd.shift base) (readLevel setup maxTokens base level cur text)
        (scanLevel setup level (cur.shift base) text))
    (move : Move) :
    Mirrors maxTokens base (LevelEnd.shift base) (readMove setup maxTokens base level cur c rest move)
      (scanMove setup level (cur.shift base) c rest (move.shift base)) := by
  have hshorter : ∀ count, (rest.drop count).length ≤ rest.length := by
    intro count
    simp
  have hpos : ∀ width, (cur.shift base).pos + width = cur.pos + width + base :=
    fun width => Nat.add_right_comm _ _ _
  cases move with
  | finish => exact endLevel_mirrors _
  | token form extra next =>
      simp only [readMove, scanMove, Move.shift, hpos]
      exact (Mirrors.push _ _ _).bind fun _ => ih _ (hshorter extra) _ _ _
  | binder stem extra =>
      simp only [readMove, scanMove, Move.shift, hpos]
      refine (Mirrors.push _ _ _).bind fun _ => (Mirrors.push _ _ _).bind fun _ => ?_
      exact ih _ (hshorter extra) _ _ _
  | group group =>
      simp only [readMove, scanMove, Move.shift, hpos]
      cases matching? (· = group.opener) (· = group.closer) (c :: rest) with
      | none => exact .fail _ _ _
      | some before =>
          refine (Mirrors.push _ _ _).bind fun _ => ?_
          refine (readInside_mirrors ?_ _ _ _).bind fun _ => ?_
          · intro separators stopAtColon pos inner hinner
            refine (enter_mirrors setup level pos).bind fun _ => ?_
            have hlen : inner.length ≤ rest.length := by
              simp only [List.length_take] at hinner
              omega
            have hstart : Cursor.start (pos + base) separators =
                (Cursor.start 0 separators).shift (base + pos) := by
              simp only [Cursor.start, Cursor.shift, Nat.zero_add, Nat.add_comm pos]
            rw [hstart]
            exact .nested (ih inner hlen _ _ _)
          · refine (Mirrors.push _ _ _).bind fun _ => ?_
            rw [Nat.add_right_comm _ base]
            exact ih _ (hshorter before.length) _ _ _

theorem readLevel_mirrors (text : List Char) :
    Mirrors maxTokens base (LevelEnd.shift base) (readLevel setup maxTokens base level cur text)
      (scanLevel setup level (cur.shift base) text) := by
  induction hlen : text.length using Nat.strongRecOn generalizing text base level cur with
  | ind length ih =>
      subst hlen
      have hcur : ∀ width, { cur.shift base with pos := (cur.shift base).pos + width } =
          { cur with pos := cur.pos + width }.shift base := by
        intro width
        simp only [Cursor.shift, Nat.add_right_comm]
      rw [readLevel_eq, scanLevel_eq, hcur]
      have hsuffix : (text.dropWhile isSkipped).length ≤ text.length :=
        (List.dropWhile_suffix isSkipped).length_le
      cases hrest : text.dropWhile isSkipped with
      | nil => exact atEnd_mirrors
      | cons c rest =>
          rw [hrest, List.length_cons] at hsuffix
          refine (nextMove_mirrors _).bind fun move => readMove_mirrors ?_ move
          intro shorter hshorter base level cur
          exact ih shorter.length (by omega) shorter rfl

end Levels

theorem within_zero (run : Lexer α) : within 0 run = run := by
  funext tokens
  simp only [within, EStateM.adaptExcept]
  cases run tokens <;> rfl

theorem readText_eq_replay (setup : Setup) (maxTokens : Option Nat) (text : List Char) :
    readText setup maxTokens text =
      (scanLevel setup ⟨true, false, 0⟩ (Cursor.start 0 setup.permissions.separators) text).replay
        maxTokens := by
  have hmirrors := @readLevel_mirrors maxTokens 0 setup ⟨true, false, 0⟩
    (Cursor.start 0 setup.permissions.separators) text
  have hview : (LevelEnd.shift 0 <$> readText setup maxTokens text) = readText setup maxTokens text :=
    id_map _
  rw [Mirrors, within_zero] at hmirrors
  exact (hmirrors.trans hview).symm

-- Tokens are recorded as long as there is room.
theorem record_of_le {tokens : List Token} {recorded : Array Token}
    (h : ∀ limit ∈ maxTokens, recorded.size + tokens.length ≤ limit) :
    record maxTokens tokens recorded = .ok () (recorded ++ tokens.toArray) := by
  induction tokens generalizing recorded with
  | nil => rw [Array.append_empty]; rfl
  | cons token rest ih =>
      simp only [List.length_cons] at h
      have hroom : maxTokens.filter (· ≤ recorded.size) = none := by
        simp only [Option.filter_eq_none_iff, decide_eq_true_eq]
        intro limit hlimit
        have := h limit hlimit
        omega
      have hpush : push maxTokens 0 token.start token.text token.form recorded =
          .ok () (recorded.push token) := by
        rw [push, hroom, Nat.zero_add]
      have hrest : record maxTokens rest (recorded.push token) =
          .ok () (recorded.push token ++ rest.toArray) := by
        refine ih fun limit hlimit => ?_
        have := h limit hlimit
        rw [Array.size_push]
        omega
      change EStateM.bind _ _ recorded = _
      rw [EStateM.bind, hpush]
      simp [hrest]

-- The first token without room is the one that is reported.
theorem record_of_length {before after : List Token} {token : Token} {limit : Nat}
    (h : before.length = limit) :
    record (some limit) (before ++ token :: after) #[] =
      .error ⟨token.start, .overflow .tokens limit⟩ before.toArray := by
  have hbefore : record (some limit) before #[] = .ok () before.toArray := by
    rw [record_of_le (by simp [h]), Array.empty_append]
  have hfull : (some limit).filter (· ≤ before.toArray.size) = some limit := by simp [h]
  rw [record_append]
  change EStateM.bind _ _ _ = _
  rw [EStateM.bind, hbefore]
  change EStateM.bind _ _ _ = _
  rw [EStateM.bind, push, hfull]

end Lexer

namespace Scan

-- A formula may have only so many tokens. The first one too many is reported, unless something else
-- is wrong before it.
def limit (run : Scan α) (maxTokens : Option Nat) : Except LexError α :=
  match maxTokens.bind fun limit => (run.tokens[limit]?).map (limit, ·) with
  | some (limit, token) => .error ⟨token.start, .overflow .tokens limit⟩
  | none => run.outcome

-- The tokens that a run has recorded when it ends, or when there is one too many.
def recorded (run : Scan α) : Option Nat → List Token
  | none => run.tokens
  | some limit => run.tokens.take limit

theorem outcome_of_limit {run : Scan α} {maxTokens : Option Nat} {a : α}
    (h : run.limit maxTokens = .ok a) : run.outcome = .ok a := by
  unfold limit at h
  split at h
  · cases h
  · exact h

theorem limit_of_le {run : Scan α} {limit : Nat} (h : run.tokens.length ≤ limit) :
    run.limit (some limit) = run.outcome := by
  have hnone : run.tokens[limit]? = none := List.getElem?_eq_none_iff.mpr h
  simp [Scan.limit, hnone]

theorem limit_of_token {run : Scan α} {limit : Nat} {token : Token}
    (h : run.tokens[limit]? = some token) :
    run.limit (some limit) = .error ⟨token.start, .overflow .tokens limit⟩ := by
  simp [Scan.limit, h]

theorem replay_of_le {run : Scan α} {maxTokens : Option Nat}
    (h : ∀ limit ∈ maxTokens, run.tokens.length ≤ limit) :
    run.replay maxTokens #[] = match run.outcome with
      | .ok a => .ok a run.tokens.toArray
      | .error e => .error e run.tokens.toArray := by
  have hrecord : Lexer.record maxTokens run.tokens #[] = .ok () run.tokens.toArray := by
    rw [Lexer.record_of_le (by simpa using h), Array.empty_append]
  change EStateM.bind _ _ _ = _
  rw [EStateM.bind, hrecord]
  cases run.outcome <;> rfl

-- To look for a token too many at each push is to look for one in the finished run.
theorem replay_eq_limit (run : Scan α) (maxTokens : Option Nat) :
    run.replay maxTokens #[] = match run.limit maxTokens with
      | .ok a => .ok a run.tokens.toArray
      | .error e => .error e (run.recorded maxTokens).toArray := by
  cases maxTokens with
  | none => exact replay_of_le fun _ h => nomatch h
  | some limit =>
      cases htoken : run.tokens[limit]? with
      | none =>
          have hall := List.getElem?_eq_none_iff.mp htoken
          have hroom : ∀ most ∈ some limit, run.tokens.length ≤ most := by
            rintro most ⟨⟩
            exact hall
          rw [replay_of_le hroom, limit_of_le hall, recorded, List.take_of_length_le hall]
      | some token =>
          obtain ⟨hlt, hget⟩ := List.getElem?_eq_some_iff.mp htoken
          have hsplit : run.tokens = run.tokens.take limit ++ token :: run.tokens.drop (limit + 1) := by
            rw [← hget, List.getElem_cons_drop, List.take_append_drop]
          have hlength : (run.tokens.take limit).length = limit := by
            rw [List.length_take]
            omega
          rw [limit_of_token htoken, recorded, replay]
          change EStateM.bind _ _ _ = _
          rw [EStateM.bind, hsplit, Lexer.record_of_length hlength, ← hsplit]

end Scan

-- The run over a whole formula when there is no limit on its tokens.
def scanText (setup : Setup) (text : List Char) : Scan LevelEnd :=
  match Lexer.readText setup none text #[] with
  | .ok ending tokens => ⟨tokens.toList, .ok ending⟩
  | .error e tokens => ⟨tokens.toList, .error e⟩

theorem scanText_eq (setup : Setup) (text : List Char) :
    scanText setup text =
      scanLevel setup ⟨true, false, 0⟩ (Cursor.start 0 setup.permissions.separators) text := by
  rw [scanText, Lexer.readText_eq_replay, Scan.replay_eq_limit]
  cases hrun : scanLevel setup _ _ text with
  | mk tokens outcome => cases outcome <;> rfl

theorem readText_eq (setup : Setup) (maxTokens : Option Nat) (text : List Char) :
    Lexer.readText setup maxTokens text #[] =
      match (scanText setup text).limit maxTokens with
      | .ok ending => .ok ending (scanText setup text).tokens.toArray
      | .error e => .error e ((scanText setup text).recorded maxTokens).toArray := by
  rw [Lexer.readText_eq_replay, Scan.replay_eq_limit, ← scanText_eq]
  cases (scanText setup text).limit maxTokens <;> rfl

theorem tokenize_eq (setup : Setup) (maxTokens : Option Nat) (text : List Char) :
    tokenize setup maxTokens text = do
      let ending ← (scanText setup text).limit maxTokens
      return ⟨(scanText setup text).tokens, ending.items, ending.stop⟩ := by
  rw [tokenize, readText_eq]
  cases (scanText setup text).limit maxTokens <;> rfl

-- What is read of a text is what a run without a limit reads.
theorem scanText_of_tokenize {setup : Setup} {maxTokens : Option Nat} {text : List Char}
    {tokenized : Tokenized} (h : tokenize setup maxTokens text = .ok tokenized) :
    ∃ ending, (scanText setup text).outcome = .ok ending ∧
      tokenized = ⟨(scanText setup text).tokens, ending.items, ending.stop⟩ := by
  rw [tokenize_eq] at h
  obtain ⟨ending, hlimit, ⟨⟩⟩ := bind_eq_ok h
  exact ⟨ending, Scan.outcome_of_limit hlimit, rfl⟩

theorem limit_of_tokenize {setup : Setup} {maxTokens : Option Nat} {text : List Char} {e : LexError}
    (h : tokenize setup maxTokens text = .error e) :
    (scanText setup text).limit maxTokens = .error e := by
  rw [tokenize_eq] at h
  cases hlimit : (scanText setup text).limit maxTokens with
  | error e' =>
      rw [hlimit] at h
      cases h
      rfl
  | ok ending =>
      rw [hlimit] at h
      cases h

end FormulaCode
