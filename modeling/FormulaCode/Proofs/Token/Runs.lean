import FormulaCode.Proofs.Token.Shift
import FormulaCode.Proofs.Token.Tiling

namespace FormulaCode

-- A level is read with these tokens to this end.
def Runs (setup : Setup) (level : Level) (cur : Cursor) (text : List Char) (tokens : List Token)
    (ending : LevelEnd) : Prop :=
  scanLevel setup level cur text = ⟨tokens, .ok ending⟩

theorem Scan.bind_eq_after {run : Scan α} {tokens : List Token} {a : α} (h : run = ⟨tokens, .ok a⟩)
    (next : α → Scan β) : (run >>= next) = (next a).after tokens := by
  subst h
  rfl

-- A text between blanks is trimmed as it would be alone.
theorem trim_between {before body after : List Char}
    (h : ∀ c ∈ before ++ after, isBlank c = true) : trim (before ++ (body ++ after)) = trim body := by
  have hbefore : ∀ c ∈ before, isBlank c = true := fun c hc => h c (List.mem_append_left after hc)
  have hafter : ∀ c ∈ after, isBlank c = true := fun c hc => h c (List.mem_append_right before hc)
  have hend : ∀ text, trimEnd (text ++ after) = trimEnd text := by
    intro text
    rw [trimEnd, trimEnd, List.reverse_append, List.dropWhile_append_of_pos]
    exact fun c hc => hafter c (List.mem_reverse.mp hc)
  rw [trim, trimStart, List.dropWhile_append_of_pos hbefore, List.dropWhile_append]
  split
  · rename_i hempty
    have hnil : after.dropWhile isBlank = [] := by
      rw [← List.append_nil after, List.dropWhile_append_of_pos hafter]
      rfl
    rw [hnil, trim, trimStart, List.isEmpty_iff.mp hempty]
  · rw [hend]
    rfl

-- What is left of a trimmed text does not begin with a blank.
theorem isBlank_of_trim {c : Char} {rest : List Char} (h : trim (c :: rest) = c :: rest) :
    isBlank c = false := by
  rw [← Bool.not_eq_true]
  intro hblank
  have hend : ∀ text, (trimEnd text).length ≤ text.length := by
    intro text
    have hsuffix := (List.dropWhile_suffix (l := text.reverse) isBlank).length_le
    rw [List.length_reverse] at hsuffix
    rw [trimEnd, List.length_reverse]
    exact hsuffix
  have hstart : trimStart (c :: rest) = trimStart rest := List.dropWhile_cons_of_pos hblank
  have hlength := hend (trimStart rest)
  have hshort := trimStart_length_le rest
  rw [← hstart, show trimEnd (trimStart (c :: rest)) = c :: rest from h, hstart,
    List.length_cons] at hlength
  omega

-- A subscript is read from the first character that is no blank.
theorem scanSubscript_of_blank {before rest : List Char} {c : Char}
    (hblank : ∀ d ∈ before, isBlank d = true) (hc : isBlank c = false)
    (nested : Separators → Bool → Nat → (text : List Char) →
      text.length ≤ (before ++ c :: rest).length → Scan LevelEnd) (pos : Nat) :
    scanSubscript (before ++ c :: rest) nested pos =
      if c = ':' then do
        Scan.emit (pos + byteLength before) [':'] .sliceMark
        let upper ← scanUpper (before ++ c :: rest) nested (pos + byteLength before + 1) rest
          ((List.suffix_cons c rest).trans (List.suffix_append before _)).length_le
        return .slice false upper
      else do
        let lower ← nested .sequence true (pos + byteLength before) (c :: rest)
          (List.suffix_append before _).length_le
        if lower.left = 0 then return .index
        else do
          Scan.emit lower.stop [':'] .sliceMark
          let upper ← scanUpper (before ++ c :: rest) nested (lower.stop + 1)
            ((c :: rest).drop ((c :: rest).length - lower.left + 1))
            ((List.drop_suffix _ _).trans (List.suffix_append before _)).length_le
          return .slice true upper := by
  have hc' : ¬isBlank c = true := by simp [hc]
  have htake : (before ++ c :: rest).takeWhile isBlank = before := by
    rw [List.takeWhile_append_of_pos hblank, List.takeWhile_cons_of_neg hc', List.append_nil]
  have hdrop : trimStart (before ++ c :: rest) = c :: rest := by
    rw [trimStart, List.dropWhile_append_of_pos hblank, List.dropWhile_cons_of_neg hc']
  unfold scanSubscript
  simp only [htake]
  split
  · rename_i hnil
    rw [hdrop] at hnil
    cases hnil
  · rename_i d more hcons
    obtain ⟨rfl, rfl⟩ := List.cons.inj (hdrop.symm.trans hcons)
    rfl

section Inside

variable {inside : List Char}
  {nested : Separators → Bool → Nat → (text : List Char) → text.length ≤ inside.length →
    Scan LevelEnd}
  {read : Separators → Bool → Nat → List Char → List Token → LevelEnd → Prop}
  (hnested : ∀ separators stopAtColon pos text tokens ending,
    read separators stopAtColon pos text tokens ending →
    ∀ h, nested separators stopAtColon pos text h = ⟨tokens, .ok ending⟩)

include hnested

theorem Part.scanItems {separators : Separators} {pos : Nat} {tokens : List Token}
    {found : Option LevelEnd} (h : Part (read separators false) pos inside tokens found) :
    scanItems inside nested separators pos = (pure (countItems found) : Scan Nat).after tokens := by
  unfold FormulaCode.scanItems
  cases h with
  | blank hblank =>
      rw [if_pos (List.all_eq_true.mpr hblank)]
      rfl
  | level hlevel _ hnonblank =>
      rw [if_neg (Bool.eq_false_iff.mp hnonblank),
        Scan.bind_eq_after (hnested _ _ _ _ _ _ hlevel _)]
      rfl

theorem Part.scanUpper {pos : Nat} {text : List Char} {tokens : List Token}
    {found : Option LevelEnd} (h : Part (read .sequence false) pos text tokens found)
    (hlength : text.length ≤ inside.length) :
    scanUpper inside nested pos text hlength = (pure found.isSome : Scan Bool).after tokens := by
  unfold FormulaCode.scanUpper
  cases h with
  | blank hblank =>
      rw [if_pos (List.all_eq_true.mpr hblank)]
      rfl
  | level hlevel _ hnonblank =>
      rw [if_neg (Bool.eq_false_iff.mp hnonblank),
        Scan.bind_eq_after (hnested _ _ _ _ _ _ hlevel _)]
      rfl

theorem Inside.scanSubscript {callee : Callee} {pos : Nat} {tokens : List Token} {closing : Closing}
    (h : Inside read .subscript callee pos inside tokens closing) :
    ∃ shape, closing = .subscript shape ∧
      scanSubscript inside nested pos = (pure shape : Scan Subscript).after tokens := by
  cases h with
  | @index _ _ before text _ ending hblank hlevel hleft hbegins =>
      obtain ⟨c, rest, rfl, hc, hcolon⟩ := hbegins
      refine ⟨_, rfl, ?_⟩
      rw [scanSubscript_of_blank hblank hc, if_neg hcolon,
        Scan.bind_eq_after (hnested _ _ _ _ _ _ hlevel _), if_pos hleft]
  | @upper _ _ before text _ found hblank hpart =>
      refine ⟨_, rfl, ?_⟩
      rw [scanSubscript_of_blank hblank (by decide), if_pos rfl, Scan.emit_bind,
        hpart.scanUpper hnested, Scan.after_bind, Scan.pure_bind, Scan.after_after]
      rfl
  | @slice _ _ before bound text lower upper ending found hblank hlevel hleft hstop hpart hbegins =>
      obtain ⟨c, rest, htext, hc, hcolon⟩ := hbegins
      have hupper : (c :: rest).drop ((c :: rest).length - ending.left + 1) = text :=
        drop_of_left htext.symm hleft
      refine ⟨_, rfl, ?_⟩
      generalize bound ++ ':' :: text = whole at htext hlevel nested hnested
      subst htext
      rw [← hupper] at hpart
      rw [scanSubscript_of_blank hblank hc, if_neg hcolon,
        Scan.bind_eq_after (hnested _ _ _ _ _ _ hlevel _), if_neg (by omega), Scan.emit_bind,
        hpart.scanUpper hnested, Scan.after_bind, Scan.pure_bind, Scan.after_after,
        Scan.after_after, List.append_assoc]
      rfl

omit hnested in
theorem scanVerbatim_between {before body after : List Char} {verbatim : Bool} (hne : body ≠ [])
    (hblank : ∀ c ∈ before ++ after, isBlank c = true)
    (htrimmed : trim (before ++ (body ++ after)) = body)
    (hquoted : verbatim = false ↔ IsQuoted body) (pos : Nat) :
    scanVerbatim pos (before ++ (body ++ after)) =
      (pure 1 : Scan Nat).after [⟨pos + byteLength before, body, .string verbatim⟩] := by
  obtain ⟨c, rest, rfl⟩ := List.exists_cons_of_ne_nil hne
  have hc : ¬isBlank c = true := by
    rw [trim_between hblank] at htrimmed
    rw [isBlank_of_trim htrimmed]
    decide
  have htake : (before ++ (c :: rest ++ after)).takeWhile isBlank = before := by
    rw [List.takeWhile_append_of_pos fun d hd => hblank d (List.mem_append_left after hd),
      List.cons_append, List.takeWhile_cons_of_neg hc, List.append_nil]
  simp only [scanVerbatim, htrimmed, htake, List.isEmpty_cons, Bool.false_eq_true, if_false,
    Scan.emit_bind]
  unfold IsQuoted at hquoted
  cases hscan : Literal.scan (c :: rest) with
  | found literal =>
      have hverbatim : (!decide (literal.width = (c :: rest).length)) = verbatim := by
        cases verbatim <;> simp [hscan] at hquoted ⊢ <;> omega
      simp only [hverbatim]
  | absent | unterminated =>
      have hverbatim : verbatim = true := by
        cases verbatim <;> simp [hscan] at hquoted ⊢
      simp only [hverbatim, Bool.not_false]

theorem Inside.scanInside {group : Group} {callee : Callee} {pos : Nat} {tokens : List Token}
    {closing : Closing} (h : Inside read group callee pos inside tokens closing) :
    scanInside inside nested group callee pos = (pure closing : Scan Closing).after tokens := by
  have hall := h
  cases h with
  | subExpr hlevel _ =>
      simp only [FormulaCode.scanInside, Scan.bind_eq_after (hnested _ _ _ _ _ _ hlevel _)]
  | substArgs hpart | list hpart | dict hpart =>
      simp only [FormulaCode.scanInside, hpart.scanItems hnested, Scan.after_bind, Scan.pure_bind]
  | call hcallee hpart =>
      cases callee with
      | textual => exact absurd rfl hcallee
      | plain | binder =>
          simp only [FormulaCode.scanInside, hpart.scanItems hnested, Scan.after_bind,
            Scan.pure_bind]
          rfl
  | noText hblank =>
      have hnil : trim inside = [] := by
        have hbetween : trim (inside ++ ([] ++ [])) = trim [] := trim_between (by simpa using hblank)
        rw [List.append_nil, List.append_nil] at hbetween
        exact hbetween
      simp only [FormulaCode.scanInside, scanVerbatim, hnil]
      rfl
  | text verbatim hne hblank htrimmed hquoted =>
      simp only [FormulaCode.scanInside, scanVerbatim_between hne hblank htrimmed hquoted,
        Scan.after_bind, Scan.pure_bind]
  | index | upper | slice =>
      obtain ⟨shape, hshape, hscan⟩ := Inside.scanSubscript hnested hall
      cases hshape
      simp only [FormulaCode.scanInside, hscan, Scan.after_bind, Scan.pure_bind]

end Inside

section Levels

variable {setup : Setup} (hdepth : setup.maxDepth = none)

include hdepth

theorem scanNested_eq (level : Level) (separators : Separators) (stopAtColon : Bool) (start : Nat)
    (inner : List Char) :
    scanNested setup level separators stopAtColon start inner =
      scanLevel setup ⟨false, stopAtColon, level.depth + 1⟩ (Cursor.start start separators) inner := by
  rw [scanNested, enter_eq_pure]
  · rfl
  · rw [hdepth]
    rintro _ ⟨⟩

-- Without a bound on the nesting, a level is read if its parts are.
theorem runs_rules : ScanRules setup (Runs setup) where
  finish := by
    intro level cur items rest hcallee hends hitems hendsAt
    have hmem : TokenKind.finish ∈ cur.candidates := by
      unfold Cursor.candidates
      split
      · rename_i hbinder
        exact absurd hbinder hcallee
      · exact hends
    have hend : endLevel level cur rest.length =
        ⟨level.endTokens cur.pos items, .ok ⟨items, cur.pos, rest.length⟩⟩ := by
      unfold endLevel Level.endTokens
      rw [hitems]
      cases level.top <;> rfl
    cases rest with
    | nil => exact (scanLevel_nil hmem).trans hend
    | cons c rest =>
        obtain ⟨hc, hmove⟩ := hendsAt c rest rfl
        rw [Runs, scanLevel_cons hc, hmove]
        exact hend
  skip := by
    intro level cur skipped text tokens ending hskipped h
    exact (scanLevel_skip hskipped text).trans h
  token := by
    intro level cur c rest form extra next tokens ending hc hmove h
    rw [Runs, scanLevel_token hc hmove, h]
    rfl
  binder := by
    intro level cur c rest stem extra tokens ending hc hmove h
    rw [Runs, scanLevel_cons hc, hmove]
    change scanMove setup level cur c rest (.binder stem extra) = _
    rw [Runs] at h
    simp only [scanMove, Scan.emit_bind]
    rw [h]
    rfl
  group := by
    intro level cur group inside rest closing tokens more ending hmove hmatch hinside h
    have hopener : isSkipped group.opener = false := by cases group <;> decide
    have hscan : scanInside inside (fun separators stopAtColon start inner _ =>
          scanNested setup level separators stopAtColon start inner) group cur.callee (cur.pos + 1) =
        (pure closing : Scan Closing).after tokens := by
      apply hinside.scanInside
      intro separators stopAtColon pos text tokens ending hlevel _
      exact (scanNested_eq hdepth level _ _ _ _).trans hlevel
    rw [Runs, scanLevel_group hopener hmove hmatch hscan, h]
    simp [Scan.after]

-- What is read at one place is read in the same way further on.
theorem Runs.shift {level : Level} {cur : Cursor} {text : List Char} {tokens : List Token}
    {ending : LevelEnd} (h : Runs setup level cur text tokens ending) (offset : Nat) :
    Runs setup level (cur.shift offset) text (tokens.map (Token.shift offset))
      (ending.shift offset) := by
  have hroom : LeavesRoom 0 setup.maxDepth none := by rintro _ ⟨⟩
  have hsetup : { setup with maxDepth := none } = setup := by rw [← hdepth]
  have hlevel : level.deepen 0 = level := by rw [Level.deepen, Nat.zero_add]
  have hshifts := scanLevel_shifts hroom offset level cur text ending (congrArg Scan.outcome h)
  rw [hsetup, hlevel, h] at hshifts
  exact hshifts

end Levels

theorem ScanRules.of_runs {setup : Setup}
    {motive : Level → Cursor → List Char → List Token → LevelEnd → Prop}
    (rules : ScanRules setup motive) {level : Level} {cur : Cursor} {text : List Char}
    {tokens : List Token} {ending : LevelEnd} (h : Runs setup level cur text tokens ending) :
    motive level cur text tokens ending := by
  have hyields := rules.yields level cur text ending (congrArg Scan.outcome h)
  rw [h] at hyields
  exact hyields.1

theorem Runs.stop_eq {setup : Setup} {level : Level} {cur : Cursor} {read left : List Char}
    {tokens : List Token} {ending : LevelEnd}
    (h : Runs setup level cur (read ++ left) tokens ending) (hleft : ending.left = left.length) :
    ending.stop = cur.pos + byteLength read := by
  obtain ⟨before, rest, htext, hlength, hstop⟩ := scanLevel_splits (congrArg Scan.outcome h)
  obtain ⟨rfl, -⟩ := List.append_inj' htext (by omega)
  exact hstop

theorem Part.mono {read other : Nat → List Char → List Token → LevelEnd → Prop}
    (hread : ∀ pos text tokens ending, read pos text tokens ending → other pos text tokens ending)
    {pos : Nat} {inside : List Char} {tokens : List Token} {found : Option LevelEnd}
    (h : Part read pos inside tokens found) : Part other pos inside tokens found := by
  cases h with
  | blank hblank => exact .blank hblank
  | level hlevel hleft hnonblank => exact .level (hread _ _ _ _ hlevel) hleft hnonblank

theorem Inside.mono
    {read other : Separators → Bool → Nat → List Char → List Token → LevelEnd → Prop}
    (hread : ∀ separators stopAtColon pos text tokens ending,
      read separators stopAtColon pos text tokens ending →
        other separators stopAtColon pos text tokens ending)
    {group : Group} {callee : Callee} {pos : Nat} {inside : List Char}
    {tokens : List Token} {closing : Closing}
    (h : Inside read group callee pos inside tokens closing) :
    Inside other group callee pos inside tokens closing := by
  cases h with
  | subExpr hlevel hleft => exact .subExpr (hread _ _ _ _ _ _ hlevel) hleft
  | substArgs hpart => exact .substArgs (hpart.mono (hread _ _))
  | list hpart => exact .list (hpart.mono (hread _ _))
  | dict hpart => exact .dict (hpart.mono (hread _ _))
  | call hcallee hpart => exact .call hcallee (hpart.mono (hread _ _))
  | noText hblank => exact .noText hblank
  | text verbatim hne hblank htrimmed hquoted => exact .text verbatim hne hblank htrimmed hquoted
  | index hblank hlevel hleft hbegins =>
      exact .index hblank (hread _ _ _ _ _ _ hlevel) hleft hbegins
  | upper hblank hpart => exact .upper hblank (hpart.mono (hread _ _))
  | slice hblank hlevel hleft hstop hpart hbegins =>
      exact .slice hblank (hread _ _ _ _ _ _ hlevel) hleft hstop (hpart.mono (hread _ _)) hbegins

end FormulaCode
