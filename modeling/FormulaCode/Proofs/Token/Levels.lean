import FormulaCode.Proofs.Token.Frames
import FormulaCode.Proofs.Token.Moves

namespace FormulaCode

theorem TokenKind.holds_of_ends {state : TokenKind} (h : .finish ∈ state.successors) :
    state.holds = 1 := by
  revert h
  cases state <;> decide

-- The reader stands in a group whose inside is complete.
def Reading.Ends (group : Group) (frames : List Frame) (total : Nat) (after : Reading) : Prop :=
  ∃ state held ternaries, after = ⟨state, false, ⟨some group, held, ternaries⟩ :: frames⟩ ∧
    (state = .start ∨ .finish ∈ state.successors) ∧ held + state.holds = total

-- Where a level leaves a reader: behind the end of the formula, or behind a value in brackets. If
-- something is left of a level in brackets, no `?` waits there.
def Level.Ends (level : Level) (group : Option Group) (frames : List Frame) (base : Nat)
    (values : Nat → Nat) (ending : LevelEnd) (after : Reading) : Prop :=
  if level.top then after.state = .finish
  else ∃ state held ternaries, after = ⟨state, false, ⟨group, held, ternaries⟩ :: frames⟩ ∧
    .finish ∈ state.successors ∧ held + 1 = base + values ending.items ∧
    (ending.left ≠ 0 → ternaries = 0)

theorem endLevel_leads {scanner : NumberScanner} {level : Level} {cur : Cursor} {left : Nat}
    {group : Option Group} {base : Nat} {values : Nat → Nat} {frame : Frame} {frames : List Frame}
    (h : frame.Tracks group base values cur) (hends : .finish ∈ cur.state.successors)
    (htop : level.top = true → frames = [])
    (hleft : level.top = false → left ≠ 0 → cur.ternaries = 0) :
    (endLevel level cur left).Leads scanner ⟨cur.state, false, frame :: frames⟩
      (level.Ends group frames base values) := by
  simp only [endLevel]
  split
  · exact Scan.leads_fail
  · rename_i items hitems
    cases hlevel : level.top with
    | true =>
        obtain rfl := htop hlevel
        refine .bind (Scan.leads_emit (.finish hends rfl)) ?_
        rintro _ _ rfl
        exact Scan.leads_pure (by rw [Level.Ends, hlevel]; rfl)
    | false =>
        obtain ⟨frameGroup, held, ternaries⟩ := frame
        obtain ⟨rfl, rfl, hseparators, -⟩ := h
        refine Scan.leads_pure ?_
        simp only [Level.Ends, hlevel, Bool.false_eq_true, if_false]
        refine ⟨cur.state, held, cur.ternaries, rfl, hends, ?_, hleft hlevel⟩
        revert hitems hseparators
        cases cur.separators with
        | sequence | terminate =>
            rintro ⟨⟩ ⟨rfl, rfl⟩
            rfl
        | items count =>
            rintro ⟨⟩ ⟨hcount, rfl⟩
            exact hcount
        | pairs count inKey =>
            cases inKey with
            | true =>
                rintro ⟨⟩
            | false =>
                rintro ⟨⟩ ⟨hcount, rfl⟩
                exact hcount

section Inside

variable {scanner : NumberScanner} {inside : List Char}
  {nested : Separators → Bool → Nat → (text : List Char) → text.length ≤ inside.length →
    Scan LevelEnd}

-- What the levels inside a group do to a reader.
def NestedLeads (scanner : NumberScanner) (inside : List Char)
    (nested : Separators → Bool → Nat → (text : List Char) → text.length ≤ inside.length →
      Scan LevelEnd) (group : Group) (frames : List Frame) : Prop :=
  ∀ separators stopAtColon pos text h held values, separators.Tracks held held values →
    (nested separators stopAtColon pos text h).Leads scanner
      ⟨.start, false, ⟨some group, held, 0⟩ :: frames⟩
      (Level.Ends ⟨false, stopAtColon, 0⟩ (some group) frames held values)

variable {group : Group} {frames : List Frame}

theorem Level.Ends.reading {level : Level} {base : Nat} {values : Nat → Nat} {ending : LevelEnd}
    {after : Reading} (hlevel : level.top = false)
    (h : level.Ends (some group) frames base values ending after) :
    after.Ends group frames (base + values ending.items) := by
  simp only [Level.Ends, hlevel, Bool.false_eq_true, if_false] at h
  obtain ⟨state, held, ternaries, rfl, hends, hvalues, -⟩ := h
  exact ⟨state, held, ternaries, rfl, Or.inr hends, by rw [TokenKind.holds_of_ends hends, hvalues]⟩

theorem scanItems_leads (hnested : NestedLeads scanner inside nested group frames)
    {separators : Separators} {pos held : Nat} {values : Nat → Nat}
    (htracks : separators.Tracks held held values) (hzero : values 0 = 0) :
    (scanItems inside nested separators pos).Leads scanner
      ⟨.start, false, ⟨some group, held, 0⟩ :: frames⟩
      fun items after => after.Ends group frames (held + values items) := by
  unfold scanItems
  split
  · exact Scan.leads_pure ⟨.start, held, 0, rfl, Or.inl rfl, by rw [hzero]; rfl⟩
  · refine .bind (hnested separators false pos inside _ held values htracks) ?_
    intro ending after hafter
    exact Scan.leads_pure (hafter.reading rfl)

theorem scanUpper_leads (hnested : NestedLeads scanner inside nested group frames) {pos held : Nat}
    {text : List Char} {hlength : text.length ≤ inside.length} :
    (scanUpper inside nested pos text hlength).Leads scanner
      ⟨.start, false, ⟨some group, held, 0⟩ :: frames⟩
      fun upper after => after.Ends group frames (held + upper.toNat) := by
  unfold scanUpper
  split
  · exact Scan.leads_pure ⟨.start, held, 0, rfl, Or.inl rfl, rfl⟩
  · refine .bind (hnested .sequence false pos text hlength held _ ⟨rfl, rfl⟩) ?_
    intro ending after hafter
    exact Scan.leads_pure (hafter.reading rfl)

theorem scanSubscript_leads (hnested : NestedLeads scanner inside nested .subscript frames)
    {pos held : Nat} :
    (scanSubscript inside nested pos).Leads scanner
      ⟨.start, false, ⟨some .subscript, held, 0⟩ :: frames⟩
      fun shape after => after.Ends .subscript frames (held + shape.operands) := by
  unfold scanSubscript
  simp only
  split
  · exact Scan.leads_fail
  · rename_i c rest htrim
    split
    · refine .bind (Scan.leads_emit (.sliceMark (Or.inl rfl) rfl)) ?_
      rintro _ _ rfl
      refine .bind (scanUpper_leads hnested) ?_
      intro upper after hafter
      exact Scan.leads_pure (by simpa [Subscript.operands, TokenKind.holds] using hafter)
    · refine .bind (hnested .sequence true _ _ _ held _ ⟨rfl, rfl⟩) ?_
      intro lower after hafter
      split
      · exact Scan.leads_pure (hafter.reading rfl)
      · rename_i hleft
        obtain ⟨state, complete, ternaries, rfl, hends, hvalues, hternaries⟩ := hafter
        obtain rfl := hternaries hleft
        refine .bind (Scan.leads_emit (.sliceMark (Or.inr hends) rfl)) ?_
        rintro _ _ rfl
        rw [TokenKind.holds_of_ends hends, hvalues]
        refine .bind (scanUpper_leads hnested) ?_
        intro upper after hafter
        exact Scan.leads_pure (by simpa [Subscript.operands, Nat.add_assoc] using hafter)

theorem scanVerbatim_leads {pos held : Nat} :
    (scanVerbatim pos inside).Leads scanner ⟨.start, false, ⟨some group, held, 0⟩ :: frames⟩
      fun items after => after.Ends group frames (held + items) := by
  unfold scanVerbatim
  simp only
  split
  · exact Scan.leads_pure ⟨.start, held, 0, rfl, Or.inl rfl, rfl⟩
  · refine .bind (Scan.leads_emit (.plain ?_ ?_)) ?_
    · show TokenKind.stringLiteral ∈ TokenKind.start.successors
      decide
    · intro hquoted
      split at hquoted
      · rename_i literal hliteral
        exact ⟨literal, hliteral⟩
      · cases hquoted
    · rintro _ _ rfl
      exact Scan.leads_pure ⟨.stringLiteral, held, 0, rfl, Or.inr (by decide), rfl⟩

theorem scanInside_leads (hnested : NestedLeads scanner inside nested group frames)
    {callee : Callee} {bound : Bool} (hbound : bound = decide (callee = .binder)) {pos : Nat} :
    (scanInside inside nested group callee pos).Leads scanner
      ⟨.start, false, ⟨some group, group.inherits bound, 0⟩ :: frames⟩
      fun found after => found.group = group ∧ after.Ends group frames found.values := by
  have hitems : ∀ held, (scanItems inside nested (.items 1) pos).Leads scanner
      ⟨.start, false, ⟨some group, held, 0⟩ :: frames⟩
      fun items after => after.Ends group frames (held + items) :=
    fun held => scanItems_leads hnested ⟨rfl, rfl⟩ rfl
  cases group with
  | subExpr =>
      refine .bind (hnested .sequence false pos inside _ 0 _ ⟨rfl, rfl⟩) ?_
      intro ending after hafter
      exact Scan.leads_pure ⟨rfl, hafter.reading rfl⟩
  | substArgs | list =>
      refine .bind (hitems 0) ?_
      intro items after hafter
      exact Scan.leads_pure ⟨rfl, by simpa [Closing.values] using hafter⟩
  | dict =>
      refine .bind (scanItems_leads hnested ⟨rfl, rfl⟩ rfl) ?_
      intro items after hafter
      exact Scan.leads_pure ⟨rfl, by simpa [Closing.values, Group.inherits] using hafter⟩
  | subscript =>
      refine .bind (scanSubscript_leads hnested) ?_
      intro shape after hafter
      exact Scan.leads_pure ⟨rfl, by simpa [Closing.values, Group.inherits, Nat.add_comm] using hafter⟩
  | call =>
      cases callee with
      | plain =>
          subst hbound
          refine .bind (hitems 1) ?_
          intro items after hafter
          exact Scan.leads_pure ⟨rfl, by simpa [Closing.values, Nat.add_comm] using hafter⟩
      | textual =>
          subst hbound
          refine .bind scanVerbatim_leads ?_
          intro items after hafter
          exact Scan.leads_pure
            ⟨rfl, by simpa [Closing.values, Group.inherits, Nat.add_comm] using hafter⟩
      | binder =>
          subst hbound
          refine .bind (hitems 2) ?_
          intro items after hafter
          rw [show 2 + items = items + 1 + 1 by omega] at hafter
          exact Scan.leads_pure ⟨rfl, hafter⟩

end Inside

theorem enter_leads {scanner : NumberScanner} {setup : Setup} {level : Level} {pos : Nat}
    {before : Reading} :
    (enter setup level pos).Leads scanner before fun _ after => after = before := by
  unfold enter
  split
  · split
    · exact Scan.leads_fail
    · exact Scan.leads_pure rfl
  · exact Scan.leads_pure rfl

theorem Group.eq_call_of_kind {group : Group} (h : group.kind = .callArgs) : group = .call := by
  cases group with
  | call => rfl
  | _ => cases h

theorem Cursor.mem_candidates {cur : Cursor} {kind : TokenKind} (h : kind ∈ cur.candidates) :
    (cur.callee = .binder ∧ kind = .callArgs) ∨
      (cur.callee ≠ .binder ∧ kind ∈ cur.state.successors) := by
  simp only [candidates] at h
  split at h
  · rename_i hcallee
    exact Or.inl ⟨hcallee, List.mem_singleton.mp h⟩
  · rename_i hcallee
    exact Or.inr ⟨hcallee, h⟩

-- A move that opens no group is made only where no call must follow.
theorem mem_successors_of_nextMove {setup : Setup} {level : Level} {cur : Cursor}
    {text : List Char} {move : Move} (h : nextMove setup level cur text = .ok move)
    (hmove : ∀ group, move ≠ .group group) :
    cur.callee ≠ .binder ∧ move.kind ∈ cur.state.successors ∧
      recognise setup level cur text move.kind = .ok (some move) := by
  obtain ⟨kind, hmem, hfound⟩ := nextMove_eq_ok h
  obtain rfl := kind_of_recognise hfound
  rcases Cursor.mem_candidates hmem with ⟨-, hcall⟩ | ⟨hcallee, hsuccessor⟩
  · rw [hcall] at hfound
    simp only [recognise, Cursor.groupMove, Except.ok.injEq, Option.ite_none_right_eq_some,
      Option.some.injEq] at hfound
    exact (hmove _ hfound.2.symm).elim
  · exact ⟨hcallee, hsuccessor, hfound⟩

-- The name of a function that binds a variable and the name of the variable are one word.
theorem word_of_binder {setup : Setup} {level : Level} {cur : Cursor} {c : Char}
    {rest : List Char} {stem extra : Nat}
    (h : nextMove setup level cur (c :: rest) = .ok (.binder stem extra)) :
    ∃ word found, word? (c :: rest) = some word ∧ binderStem? word = some found ∧
      stem = found.length ∧ c :: rest.take extra = word := by
  obtain ⟨-, -, hfound⟩ := mem_successors_of_nextMove h (by simp)
  obtain ⟨word, hword, hmove⟩ := Option.bind_eq_some_iff.mp (Except.ok.inj hfound)
  simp only at hmove
  split at hmove
  · cases hmove
  · split at hmove
    · rename_i found hstem
      cases hmove
      exact ⟨word, found, hword, hstem, rfl, (word?_eq_some hword).2.2⟩
    · cases hmove

-- What the tokens of the levels in a text do to a reader, whatever was read before.
def LevelsLead (setup : Setup) (text : List Char) : Prop :=
  ∀ {level : Level} {cur : Cursor} {group : Option Group} {base : Nat} {values : Nat → Nat}
    {frame : Frame} {frames : List Frame}, frame.Tracks group base values cur →
    (cur.callee = .binder → cur.state = .name) → (level.top = true → frames = []) →
    (scanLevel setup level cur text).Leads setup.scanner
      ⟨cur.state, decide (cur.callee = .binder), frame :: frames⟩
      (level.Ends group frames base values)

theorem Frame.Tracks.skip {group : Option Group} {base : Nat} {values : Nat → Nat} {frame : Frame}
    {cur : Cursor} (h : frame.Tracks group base values cur) {next : Cursor}
    (hternaries : next.ternaries = cur.ternaries) (hseparators : next.separators = cur.separators) :
    frame.Tracks group base values next :=
  ⟨h.inGroup, h.ternaries.trans hternaries.symm, hseparators ▸ h.separators,
    hseparators ▸ h.outside⟩

section Move

variable {setup : Setup} {level : Level} {cur : Cursor} {c : Char} {rest : List Char}
  {group : Option Group} {base : Nat} {values : Nat → Nat} {frame : Frame} {frames : List Frame}
  (h : frame.Tracks group base values cur) (htop : level.top = true → frames = [])
  (ih : ∀ text : List Char, text.length ≤ rest.length → LevelsLead setup text)

include h htop

theorem finish_leads (hmove : nextMove setup level cur (c :: rest) = .ok .finish) :
    (scanMove setup level cur c rest .finish).Leads setup.scanner
      ⟨cur.state, decide (cur.callee = .binder), frame :: frames⟩
      (level.Ends group frames base values) := by
  obtain ⟨hcallee, hends, hfound⟩ := mem_successors_of_nextMove hmove (by simp)
  rw [decide_eq_false hcallee]
  refine endLevel_leads h hends htop fun hlevel _ => ?_
  simp only [Move.kind, recognise, Cursor.finishMove, hlevel, Except.ok.injEq,
    Option.ite_none_right_eq_some] at hfound
  have hcolon := hfound.1
  simp only [List.isEmpty_cons, Bool.false_or, Bool.and_eq_true, decide_eq_true_eq] at hcolon
  exact hcolon.1.2

include ih

theorem token_leads {form : Form} {extra : Nat} {next : Cursor}
    (hmove : nextMove setup level cur (c :: rest) = .ok (.token form extra next)) :
    (scanMove setup level cur c rest (.token form extra next)).Leads setup.scanner
      ⟨cur.state, decide (cur.callee = .binder), frame :: frames⟩
      (level.Ends group frames base values) := by
  obtain ⟨hcallee, hsuccessor, hfound⟩ := mem_successors_of_nextMove hmove (by simp)
  obtain ⟨hplain, later, htracks, hnext⟩ : Cursor.Advances setup.scanner group base values
      frame frames cur ⟨cur.pos, c :: rest.take extra, form⟩ next :=
    recognise_token h hsuccessor hfound
  rw [decide_eq_false hcallee]
  refine .bind (Scan.leads_emit hnext) ?_
  rintro _ _ rfl
  have hlater := ih (rest.drop extra) (by simp)
    (htracks.skip rfl rfl :
      later.Tracks group base values
        { next with pos := cur.pos + byteLength (c :: rest.take extra), state := form.kind })
    (fun hbinder => (hplain hbinder).elim) htop
  rw [decide_eq_false hplain] at hlater
  exact hlater

theorem binder_leads {stem extra : Nat}
    (hmove : nextMove setup level cur (c :: rest) = .ok (.binder stem extra)) :
    (scanMove setup level cur c rest (.binder stem extra)).Leads setup.scanner
      ⟨cur.state, decide (cur.callee = .binder), frame :: frames⟩
      (level.Ends group frames base values) := by
  obtain ⟨hcallee, hsuccessor, -⟩ := mem_successors_of_nextMove hmove (by simp)
  rw [decide_eq_false hcallee]
  refine .bind (Scan.leads_emit (.plain hsuccessor trivial)) ?_
  rintro _ _ rfl
  refine .bind (Scan.leads_emit (.boundName rfl)) ?_
  rintro _ _ rfl
  exact ih (rest.drop extra) (by simp) (h.skip rfl rfl) (fun _ => rfl) htop

theorem group_leads (hname : cur.callee = .binder → cur.state = .name) {opened : Group}
    (hmove : nextMove setup level cur (c :: rest) = .ok (.group opened)) :
    (scanMove setup level cur c rest (.group opened)).Leads setup.scanner
      ⟨cur.state, decide (cur.callee = .binder), frame :: frames⟩
      (level.Ends group frames base values) := by
  obtain ⟨kind, hmem, hfound⟩ := nextMove_eq_ok hmove
  obtain rfl := kind_of_recognise hfound
  have hopened : if decide (cur.callee = .binder) = true then cur.state = .name ∧ opened = .call
      else opened.kind ∈ cur.state.successors := by
    rcases Cursor.mem_candidates hmem with ⟨hbinder, hcall⟩ | ⟨hcallee, hsuccessor⟩
    · rw [if_pos (decide_eq_true hbinder)]
      exact ⟨hname hbinder, Group.eq_call_of_kind hcall⟩
    · rw [if_neg (by simpa using hcallee)]
      exact hsuccessor
  simp only [scanMove]
  split
  · exact Scan.leads_fail
  · rename_i before hbefore
    refine .bind (Scan.leads_emit (.opening opened hopened rfl)) ?_
    rintro _ _ rfl
    refine .bind (scanInside_leads ?_ rfl) ?_
    · intro separators stopAtColon start inner hinner held values htracks
      rw [List.length_take] at hinner
      refine .bind enter_leads ?_
      rintro _ _ rfl
      refine ih inner (by omega) ⟨rfl, rfl, htracks, ?_⟩ (by rintro ⟨⟩) (by rintro ⟨⟩)
      rintro ⟨⟩
    · rintro found after ⟨rfl, state, held, ternaries, rfl, hends, hvalues⟩
      refine .bind (Scan.leads_emit (.closing found hends rfl hvalues)) ?_
      rintro _ _ rfl
      exact ih (rest.drop before.length) (by simp) (h.skip rfl rfl) (by rintro ⟨⟩) htop

end Move

-- The tokens of a level lead a reader from its beginning to its end.
theorem levelsLead (setup : Setup) (text : List Char) : LevelsLead setup text := by
  induction text using scan_induction with
  | blank skipped hskipped =>
      intro level cur group base values frame frames h hname htop
      rw [scanLevel_skip hskipped, scanLevel_end]
      split
      · rename_i hfinish
        rcases Cursor.mem_candidates (List.contains_iff_mem.mp hfinish) with
          ⟨-, hcall⟩ | ⟨hcallee, hends⟩
        · cases hcall
        · rw [decide_eq_false hcallee]
          exact endLevel_leads (h.skip rfl rfl) hends htop fun _ hzero => (hzero rfl).elim
      · exact Scan.leads_fail
  | step skipped c rest hskipped hc ih =>
      intro level cur group base values frame frames h hname htop
      rw [scanLevel_skip hskipped, scanLevel_cons hc]
      have hskip : frame.Tracks group base values
          { cur with pos := cur.pos + byteLength skipped } := h.skip rfl rfl
      cases hmove : nextMove setup level { cur with pos := cur.pos + byteLength skipped }
          (c :: rest) with
      | error e =>
          intro _ hout
          cases hout
      | ok move =>
          cases move with
          | finish => exact finish_leads hskip htop hmove
          | token form extra next => exact token_leads hskip htop ih hmove
          | binder stem extra => exact binder_leads hskip htop ih hmove
          | group opened => exact group_leads hskip htop ih hname hmove

-- The tokens of a formula lead a reader to its end.
theorem tokenize_eq_ok {setup : Setup} {maxTokens : Option Nat} {text : List Char}
    {tokenized : Tokenized} (h : tokenize setup maxTokens text = .ok tokenized)
    (hdict : setup.permissions.dict = false) :
    ∃ after : Reading, after.state = .finish ∧
      Reading.Run setup.scanner .start tokenized.tokens after := by
  obtain ⟨ending, hout, rfl⟩ := scanText_of_tokenize h
  rw [scanText_eq] at hout ⊢
  have hseparators : setup.permissions.separators = .sequence ∨
      setup.permissions.separators = .terminate := by
    simp only [Permissions.separators, hdict, Bool.false_eq_true, if_false]
    split
    · exact Or.inl rfl
    · exact Or.inr rfl
  have htracks : Frame.Tracks none 0 (fun _ => 1) ⟨none, 0, 0⟩
      (Cursor.start 0 setup.permissions.separators) := by
    refine ⟨rfl, rfl, ?_, fun _ => hseparators⟩
    rcases hseparators with hsequence | hterminate
    · rw [Cursor.start, hsequence]
      exact ⟨rfl, rfl⟩
    · rw [Cursor.start, hterminate]
      exact ⟨rfl, rfl⟩
  obtain ⟨after, hrun, hafter⟩ :=
    levelsLead setup text htracks (by rintro ⟨⟩) (fun _ => rfl) ending hout
  exact ⟨after, hafter, hrun⟩

end FormulaCode
