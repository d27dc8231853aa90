import FormulaCode.Proofs.Token.Frontier
import FormulaCode.Proofs.Token.Openings

namespace FormulaCode

-- The end of a group with nothing inside, for the groups that may be empty. The name of a bound
-- variable is an argument.
def Group.emptied? (callee : Callee) : Group → Option Closing
  | substArgs => some (.substArgs 0)
  | list => some (.list 0)
  | dict => some (.dict 0)
  | call => some (.call (if callee = .binder then 1 else 0))
  | subExpr | subscript => none

theorem trim_eq_nil_iff (text : List Char) : trim text = [] ↔ ∀ c ∈ text, isBlank c = true := by
  constructor
  · intro h
    obtain ⟨after, htext, hblank⟩ := exists_trim text
    rw [h, List.nil_append] at htext
    rwa [← htext] at hblank
  · intro h
    have hdrop : (text ++ []).dropWhile isBlank = [] := List.dropWhile_append_of_pos h
    rw [trim, trimStart, ← List.append_nil text, hdrop]
    rfl

section Inside

variable {inside : List Char} {group : Group} {callee : Callee} {closing : Closing}
  (hempty : group.emptied? callee = some closing)

include hempty

-- Nothing is read of a group that is blank.
theorem scanInside_blank (hblank : ∀ c ∈ inside, isBlank c = true)
    (nested : Separators → Bool → Nat → (text : List Char) → text.length ≤ inside.length →
      Scan LevelEnd) (pos : Nat) :
    scanInside inside nested group callee pos = pure closing := by
  have hitems : ∀ separators, scanItems inside nested separators pos = pure 0 := by
    intro separators
    rw [scanItems, if_pos (List.all_eq_true.mpr hblank)]
  cases group with
  | subExpr | subscript => cases hempty
  | substArgs | list | dict =>
      cases hempty
      rw [scanInside, hitems]
      rfl
  | call =>
      cases hempty
      cases callee with
      | plain | binder =>
          rw [scanInside, hitems]
          rfl
      | textual =>
          rw [scanInside, scanVerbatim]
          simp only [(trim_eq_nil_iff inside).mpr hblank]
          rfl

-- Where a group is read that is not blank, it fails if a level in it does.
theorem scanInside_of_nested {nested : Separators → Bool → Nat → (text : List Char) →
      text.length ≤ inside.length → Scan LevelEnd} {pos : Nat} {e : LexError}
    (hblank : ¬∀ c ∈ inside, isBlank c = true) (hcallee : group = .call → callee ≠ .textual)
    (hnested : ∀ separators h, nested separators false pos inside h = ⟨[], .error e⟩) :
    scanInside inside nested group callee pos = ⟨[], .error e⟩ := by
  have hitems : ∀ separators, scanItems inside nested separators pos = ⟨[], .error e⟩ := by
    intro separators
    rw [scanItems, if_neg (fun hall => hblank (List.all_eq_true.mp hall)), hnested]
    rfl
  cases group with
  | subExpr | subscript => cases hempty
  | substArgs | list | dict =>
      rw [scanInside, hitems]
      rfl
  | call =>
      cases callee with
      | plain | binder =>
          rw [scanInside, hitems]
          rfl
      | textual => exact absurd rfl (hcallee rfl)

end Inside

-- The failure of a level in which there is nothing to read, from one offset to another: it ends
-- where a value must come, or it is too deep.
def LexError.IsBarren (setup : Setup) (pos stop : Nat) (e : LexError) : Prop :=
  e = ⟨stop, .fault (.expected TokenKind.start.successors)⟩ ∨
    ∃ limit, setup.maxDepth = some limit ∧ e = ⟨pos, .overflow .nesting limit⟩

section Skipped

variable {inside : List Char} (hskipped : ∀ c ∈ inside, isSkipped c = true)

include hskipped

-- A level of nothing but such characters always fails, and the same way whatever its commas mean.
theorem scanNested_skipped (setup : Setup) (level : Level) (pos : Nat) :
    ∃ e : LexError, e.IsBarren setup pos (pos + byteLength inside) ∧
      ∀ separators, scanNested setup level separators false pos inside = ⟨[], .error e⟩ := by
  have hlevel : ∀ separators,
      scanLevel setup ⟨false, false, level.depth + 1⟩ (Cursor.start pos separators) inside =
        Scan.fail (pos + byteLength inside) (.fault (.expected TokenKind.start.successors)) := by
    intro separators
    rw [← List.append_nil inside, scanLevel_skip hskipped, scanLevel_end, List.append_nil]
    rfl
  cases hlimit : setup.maxDepth with
  | none =>
      refine ⟨_, Or.inl rfl, fun separators => ?_⟩
      rw [scanNested, enter, hlimit, hlevel]
      rfl
  | some limit =>
      by_cases hdeep : limit ≤ level.depth
      · refine ⟨⟨pos, .overflow .nesting limit⟩, Or.inr ⟨limit, hlimit, rfl⟩, fun separators => ?_⟩
        rw [scanNested, enter, hlimit]
        simp only [if_pos hdeep]
        rfl
      · refine ⟨_, Or.inl rfl, fun separators => ?_⟩
        rw [scanNested, enter, hlimit, hlevel]
        simp only [if_neg hdeep]
        rfl

-- An argument of such characters that is taken as text is that text.
theorem scanVerbatim_skipped (hblank : ¬∀ c ∈ inside, isBlank c = true) (pos : Nat) :
    scanVerbatim pos inside = (pure 1 : Scan Nat).after
      [⟨pos + byteLength (inside.takeWhile isBlank), trim inside, .string true⟩] := by
  obtain ⟨after, htext, -⟩ := exists_trim inside
  obtain ⟨c, body, hbody⟩ := List.exists_cons_of_ne_nil (mt (trim_eq_nil_iff inside).mp hblank)
  have hc : isSkipped c = true := hskipped c (by rw [htext, hbody]; simp)
  have hquoted : ∀ literal, Literal.scan (c :: body) ≠ .found literal := by
    intro literal hfound
    rw [isSkipped_of_scan hfound] at hc
    cases hc
  rw [scanVerbatim, hbody]
  cases hscan : Literal.scan (c :: body) with
  | absent | unterminated => rfl
  | found literal => exact absurd hscan (hquoted literal)

-- Such characters are neither brackets nor quotes, so the next closing bracket is the one of the
-- group.
theorem matching?_skipped (group : Group) (rest : List Char) :
    matching? (· = group.opener) (· = group.closer)
      (group.opener :: (inside ++ group.closer :: rest)) = some (group.opener :: inside) := by
  have hopener : isSkipped group.opener = false := by cases group <;> decide
  have hcloser : isSkipped group.closer = false := by cases group <;> decide
  have hquote : isQuote group.closer = false := by cases group <;> decide
  refine matching?_eq group.isQuote_opener hquote group.opener_ne_closer.symm (.chars fun c hc => ?_)
  have hc := hskipped c hc
  exact ⟨isQuote_of_class hc (by decide) (by decide), ne_of_class hc hopener, ne_of_class hc hcloser⟩

end Skipped

-- A place in a text where a run has recorded the first bracket of a group, and nothing but
-- characters that are skipped between tokens stands before the last.
structure SkippedGroup (setup : Setup) (text : List Char) where
  group : Group
  before : List Char
  inside : List Char
  after : List Char
  tokens : List Token
  more : List Token
  text_eq : text = before ++ group.opener :: (inside ++ group.closer :: after)
  skipped : ∀ c ∈ inside, isSkipped c = true
  tokens_eq : (scanText setup text).tokens =
    tokens ++ ⟨byteLength before, [group.opener], .opening group⟩ :: more

namespace SkippedGroup

variable {setup : Setup} {text : List Char} (place : SkippedGroup setup text)

-- The offset of the last bracket.
def close : Nat :=
  byteLength (place.before ++ place.group.opener :: place.inside)

-- What the token in front of the group makes of it.
def callee : Callee :=
  lastCallee .plain place.tokens

-- The run reads the group there, from one bracket to the other.
theorem exists_through : ∃ level cur rest, cur.pos = byteLength place.before ∧
    cur.callee = place.callee ∧ (scanText setup text).Through place.tokens
      (scanGroup setup level cur place.group place.inside rest) := by
  obtain @⟨level, cur, inside, rest, first, last, htext, hstart, hpos, hcallee, hmatched,
    hthrough⟩ := (opens_rules setup).of_scanText text place.tokens _ place.more place.group
      place.tokens_eq rfl
  have hlength : byteLength first = byteLength place.before :=
    (hstart.trans (Nat.zero_add _)).symm
  -- The text is cut at the same offset in two ways, and the bracket that closes is the same.
  have hsame := place.text_eq.symm.trans htext
  have hsplit := splitAtByte_left first
    (place.group.opener :: (inside ++ place.group.closer :: rest) ++ last)
  rw [← hsame, hlength, splitAtByte_left] at hsplit
  obtain ⟨-, hbehind⟩ := Prod.mk.inj hsplit
  have hwhole := matching?_behind hmatched (rest ++ last)
  have hinside : place.inside = inside := by
    rw [List.cons_append, List.append_assoc, List.cons_append] at hbehind
    rw [← hbehind, matching?_skipped place.skipped] at hwhole
    exact (List.cons.inj (Option.some.inj hwhole)).2
  rw [hinside]
  exact ⟨level, cur, rest, hpos, hcallee, hthrough⟩

-- What comes behind the first bracket, if the inside is read without a failure.
theorem exists_more (inner : List Token) (closing : Closing)
    (hinside : ∀ (level : Level) (cur : Cursor), cur.pos = byteLength place.before →
      cur.callee = place.callee → scanInside place.inside
        (fun separators stopAtColon start inner _ =>
          scanNested setup level separators stopAtColon start inner)
        place.group cur.callee (cur.pos + 1) = (pure closing : Scan Closing).after inner) :
    ∃ later, place.more =
      inner ++ ⟨place.close, [place.group.closer], .closing closing⟩ :: later := by
  obtain ⟨level, cur, rest, hpos, hcallee, hthrough⟩ := place.exists_through
  obtain ⟨later, hlater⟩ := hthrough.exists_tokens
  rw [scanGroup_eq_after (hinside level cur hpos hcallee) rest, place.tokens_eq] at hlater
  generalize scanLevel setup level _ rest = behind at hlater
  have hmore := (List.cons.inj (List.append_cancel_left hlater)).2
  refine ⟨behind.tokens ++ later, hmore.trans ?_⟩
  rw [close, byteLength_append, hpos]
  simp

-- If nothing can be read of the inside, the run ends there.
theorem exists_barren (hblank : ¬∀ c ∈ place.inside, isBlank c = true) {closing : Closing}
    (hempty : place.group.emptied? place.callee = some closing)
    (hcallee : place.group = .call → place.callee ≠ .textual) :
    place.more = [] ∧ ∃ e : LexError,
      e.IsBarren setup (byteLength place.before + 1) place.close ∧
      (scanText setup text).outcome = .error e := by
  obtain ⟨level, cur, rest, hpos, hsame, hthrough⟩ := place.exists_through
  obtain ⟨e, hbarren, hnested⟩ := scanNested_skipped place.skipped setup level (cur.pos + 1)
  have hinside : scanInside place.inside
      (fun separators stopAtColon start inner _ =>
        scanNested setup level separators stopAtColon start inner)
      place.group cur.callee (cur.pos + 1) = ⟨[], .error e⟩ :=
    scanInside_of_nested (hsame ▸ hempty) hblank (hsame ▸ hcallee) fun separators _ =>
      hnested separators
  have hgroup : scanGroup setup level cur place.group place.inside rest =
      ⟨[⟨cur.pos, [place.group.opener], .opening place.group⟩], .error e⟩ := by
    rw [scanGroup, hinside]
    rfl
  rw [hgroup] at hthrough
  have hrun := hthrough.of_error rfl
  have htokens := place.tokens_eq
  rw [hrun] at htokens
  have hclose : cur.pos + 1 + byteLength place.inside = place.close := by
    rw [close, byteLength_append, place.group.byteLength_opener, hpos, Nat.add_assoc]
  rw [hclose, hpos] at hbarren
  exact ⟨(List.cons.inj (List.append_cancel_left htokens)).2.symm, e, hbarren, by rw [hrun]⟩

-- No failure lies between two brackets in a row. Only the limit of tokens may be met at the second.
theorem offset_outside {closing : Closing} {later : List Token}
    (hmore : place.more = ⟨place.close, [place.group.closer], .closing closing⟩ :: later)
    {maxTokens : Option Nat} {e : LexError} (h : tokenize setup maxTokens text = .error e) :
    e.offset ≤ byteLength place.before ∨
      e = ⟨place.close, .overflow .tokens (place.tokens.length + 1)⟩ ∨ place.close < e.offset := by
  have htokens := place.tokens_eq
  rw [hmore] at htokens
  have hopening : (scanText setup text).tokens[place.tokens.length]? =
      some ⟨byteLength place.before, [place.group.opener], .opening place.group⟩ := by
    simp [htokens]
  have hclosing : (scanText setup text).tokens[place.tokens.length + 1]? =
      some ⟨place.close, [place.group.closer], .closing closing⟩ := by
    simp [htokens]
  have hbehind : ⟨place.close, [place.group.closer], .closing closing⟩ ∈
      (scanText setup text).recorded maxTokens → place.close < e.offset := by
    intro hmem
    have hstop := (frontier_of_limit (limit_of_tokenize h)).behind _ hmem
    have hsize : byteLength [place.group.closer] = 1 := place.group.utf8Size_closer
    simp only [Token.stop, Token.size, hsize] at hstop
    omega
  cases maxTokens with
  | none => exact Or.inr (Or.inr (hbehind (List.mem_of_getElem? hclosing)))
  | some limit =>
      have hlimit := limit_of_tokenize h
      rcases Nat.lt_trichotomy limit (place.tokens.length + 1) with hless | rfl | hgreater
      · have hbound := (List.getElem?_eq_some_iff.mp hopening).1
        have hin : limit < (scanText setup text).tokens.length := by omega
        have htoken := List.getElem?_eq_getElem hin
        rw [Scan.limit_of_token htoken] at hlimit
        cases hlimit
        exact Or.inl (scanText_start_le (by omega) htoken hopening)
      · rw [Scan.limit_of_token hclosing] at hlimit
        cases hlimit
        exact Or.inr (Or.inl rfl)
      · have htake := (List.getElem?_take_of_lt hgreater).trans hclosing
        exact Or.inr (Or.inr (hbehind (List.mem_of_getElem? htake)))

-- The brackets of a blank group stand in a row.
theorem exists_closed {closing : Closing}
    (hempty : place.group.emptied? place.callee = some closing)
    (hblank : ∀ c ∈ place.inside, isBlank c = true) :
    ∃ later, place.more = ⟨place.close, [place.group.closer], .closing closing⟩ :: later := by
  refine place.exists_more [] closing fun level cur _ hsame => ?_
  exact scanInside_blank (hsame ▸ hempty) hblank _ _

-- The argument of a text function is what is left when it is trimmed.
theorem exists_text (hblank : ¬∀ c ∈ place.inside, isBlank c = true) (hgroup : place.group = .call)
    (hcallee : place.callee = .textual) :
    ∃ later, place.more =
      ⟨byteLength place.before + 1 + byteLength (place.inside.takeWhile isBlank),
        trim place.inside, .string true⟩ ::
      ⟨place.close, [place.group.closer], .closing (.call 1)⟩ :: later := by
  refine place.exists_more [_] (.call 1) fun level cur hpos hsame => ?_
  rw [hgroup, hsame, hcallee, scanInside, scanVerbatim_skipped place.skipped hblank, hpos]
  rfl

end SkippedGroup

-- A group that may be empty is read as empty if its inside is blank, and then no failure lies
-- between its brackets. Other characters do not leave it empty although they are skipped between
-- tokens. They are an argument where it is taken as text, and in any other group a value is missing
-- behind them.
theorem tokenize_skipped_group {setup : Setup} {text : List Char} (place : SkippedGroup setup text)
    {closing : Closing} (hempty : place.group.emptied? place.callee = some closing) :
    ((∀ c ∈ place.inside, isBlank c = true) ↔
      place.more.head? = some ⟨place.close, [place.group.closer], .closing closing⟩) ∧
    ((∀ c ∈ place.inside, isBlank c = true) → ∀ maxTokens e,
      tokenize setup maxTokens text = .error e →
        e.offset ≤ byteLength place.before ∨
          e = ⟨place.close, .overflow .tokens (place.tokens.length + 1)⟩ ∨
          place.close < e.offset) ∧
    ((¬∀ c ∈ place.inside, isBlank c = true) → place.group = .call → place.callee = .textual →
      ∃ later, place.more =
        ⟨byteLength place.before + 1 + byteLength (place.inside.takeWhile isBlank),
          trim place.inside, .string true⟩ ::
        ⟨place.close, [place.group.closer], .closing (.call 1)⟩ :: later) ∧
    ((¬∀ c ∈ place.inside, isBlank c = true) →
      (place.group = .call → place.callee ≠ .textual) →
      place.more = [] ∧ ∃ e : LexError,
        e.IsBarren setup (byteLength place.before + 1) place.close ∧
        ∀ maxTokens, (∀ limit ∈ maxTokens, place.tokens.length < limit) →
          tokenize setup maxTokens text = .error e) := by
  refine ⟨⟨fun hblank => ?_, fun hhead => ?_⟩, fun hblank maxTokens e h => ?_, place.exists_text,
    fun hblank hcallee => ?_⟩
  · obtain ⟨later, hmore⟩ := place.exists_closed hempty hblank
    rw [hmore, List.head?_cons]
  · refine Classical.byContradiction fun hblank => ?_
    by_cases htextual : place.group = .call ∧ place.callee = .textual
    · obtain ⟨later, hmore⟩ := place.exists_text hblank htextual.1 htextual.2
      rw [hmore, List.head?_cons] at hhead
      have hform := congrArg Token.form (Option.some.inj hhead)
      cases hform
    · obtain ⟨hmore, -⟩ := place.exists_barren hblank hempty fun hgroup hcallee =>
        htextual ⟨hgroup, hcallee⟩
      rw [hmore] at hhead
      cases hhead
  · obtain ⟨later, hmore⟩ := place.exists_closed hempty hblank
    exact place.offset_outside hmore h
  · obtain ⟨hmore, e, hbarren, hout⟩ := place.exists_barren hblank hempty hcallee
    refine ⟨hmore, e, hbarren, fun maxTokens hlimit => ?_⟩
    have hlength : (scanText setup text).tokens.length = place.tokens.length + 1 := by
      rw [place.tokens_eq, hmore, List.length_append, List.length_singleton]
    have hlimited : (scanText setup text).limit maxTokens = .error e := by
      cases maxTokens with
      | none => exact hout
      | some limit =>
          have hless := hlimit limit rfl
          rw [Scan.limit_of_le (by omega), hout]
    simp only [tokenize_eq, hlimited]
    rfl

-- A bound variable is the only argument of a call in a list, in which a value is missing later.
def blankCall : SkippedGroup ⟨{}, scanNumber, none⟩ "[diff_dx(\t ),]".toList where
  group := .call
  before := "[diff_dx".toList
  inside := ['\t', ' ']
  after := [',', ']']
  tokens := [⟨0, ['['], .opening .list⟩, ⟨1, "diff_d".toList, .name⟩, ⟨7, ['x'], .string true⟩]
  more := [⟨11, [')'], .closing (.call 1)⟩, ⟨12, [','], .binary .collect⟩]
  text_eq := by decide
  skipped := List.all_eq_true.mp (by decide)
  tokens_eq := by decide +kernel

theorem tokenize_skipped_group_call :
    blankCall.group.emptied? blankCall.callee = some (.call 1) ∧
    (∀ c ∈ blankCall.inside, isBlank c = true) ∧
    blankCall.more.head? = some ⟨11, [')'], .closing (.call 1)⟩ ∧
    (tokenize ⟨{}, scanNumber, none⟩ none "[diff_dx(\t ),]".toList).isOk = false ∧
    ∀ maxTokens e, tokenize ⟨{}, scanNumber, none⟩ maxTokens "[diff_dx(\t ),]".toList = .error e →
      e.offset ≤ 8 ∨ e = ⟨11, .overflow .tokens 4⟩ ∨ 11 < e.offset := by
  have hempty : blankCall.group.emptied? blankCall.callee = some (.call 1) := by decide
  have hblank : ∀ c ∈ blankCall.inside, isBlank c = true := List.all_eq_true.mp (by decide)
  obtain ⟨hread, houtside, -⟩ := tokenize_skipped_group blankCall hempty
  exact ⟨hempty, hblank, hread.mp hblank, by decide +kernel, houtside hblank⟩

-- A character that is skipped between tokens and is not blank, alone in a list.
def controlList : SkippedGroup ⟨{}, scanNumber, none⟩ "[\x01]".toList where
  group := .list
  before := []
  inside := ['\x01']
  after := []
  tokens := []
  more := []
  text_eq := by decide
  skipped := List.all_eq_true.mp (by decide)
  tokens_eq := by decide +kernel

-- The list is not read as empty, and the failure is at the end of its inside.
theorem tokenize_control_list :
    controlList.group.emptied? controlList.callee = some (.list 0) ∧
    controlList.more.head? ≠ some ⟨controlList.close, [']'], .closing (.list 0)⟩ ∧
    tokenize ⟨{}, scanNumber, none⟩ none "[\x01]".toList =
      .error ⟨2, .fault (.expected TokenKind.start.successors)⟩ := by
  refine ⟨by decide, by decide, ?_⟩
  -- The scan is by well-founded recursion, which is opened here only to run it.
  with_unfolding_all rfl

end FormulaCode
