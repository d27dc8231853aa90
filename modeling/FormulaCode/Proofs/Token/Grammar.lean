import FormulaCode.Proofs.Token.Success

namespace FormulaCode

-- The comma between items or pairs, and the colon between a key and its value.
def Form.isMark : Form → Bool
  | binary .collect | ternary .pair => true
  | _ => false

-- What is neither a part of a group nor the end of the formula.
def Form.IsPlain : Form → Prop
  | opening _ | closing _ | sliceMark | finish _ => False
  | _ => True

-- The marks of a level, given the forms of its units.
def marks (units : List Form) : List Form :=
  units.filter Form.isMark

-- The marks of so many pairs: colons with a comma between any two.
def pairMarks (pairs : Nat) : List Form :=
  (List.replicate pairs (.ternary .pair)).intersperse (.binary .collect)

-- No items without units, and otherwise one more than there are commas between them.
def itemCount (units : List Form) : Nat :=
  if units = [] then 0 else units.count (.binary .collect) + 1

-- What the end of a group may say if the level before it has these units. A bound variable counts
-- as an item of the call behind it. In a dictionary the marks take turns, as those of its pairs do.
def Closing.Fits (bound : Bool) (units : List Form) : Closing → Prop
  | subExpr => units ≠ [] ∧ marks units = []
  | substArgs items | list items => .ternary .pair ∉ units ∧ items = itemCount units
  | call items => .ternary .pair ∉ units ∧ items = itemCount units + bound.toNat
  | dict pairs => marks units = pairMarks pairs ∧ (pairs = 0 ↔ units = [])
  | subscript shape => shape = .index ∧ units ≠ [] ∧ marks units = []

mutual

-- Units of a level in a row, each of a kind that may follow the one before it. A group is one unit,
-- and `units` has its closing for it. Only the name of a function that binds a variable is followed
-- by what may not follow a name: by the name of the variable, behind which a call must come, which
-- `bound` says.
inductive Units : TokenKind → Bool → List Token → List Form → TokenKind → Prop
  | done (state : TokenKind) : Units state false [] [] state
  | token {state token tokens units last} (successor : token.kind ∈ state.successors)
      (plain : token.form.IsPlain) (rest : Units token.kind false tokens units last) :
      Units state false (token :: tokens) (token.form :: units) last
  | binder {state function dummy tokens units last} (successor : .name ∈ state.successors)
      (function_form : function.form = .name) (dummy_form : dummy.form = .string true)
      (rest : Units .name true tokens units last) :
      Units state false (function :: dummy :: tokens) (.name :: .string true :: units) last
  | group {state bound opening inside closing found tokens units last}
      (successor : found.group.kind ∈ state.successors) (call : bound = true → found.group = .call)
      (opens : opening.form = .opening found.group) (closes : closing.form = .closing found)
      (within : Within bound inside found) (rest : Units found.group.kind false tokens units last) :
      Units state bound (opening :: inside ++ closing :: tokens) (.closing found :: units) last

-- All the units of a level: there are none, or they lead from the start to a kind that may be the
-- last.
inductive Whole : List Token → List Form → Prop
  | empty : Whole [] []
  | full {tokens units last} (level : Units .start false tokens units last)
      (ends : .finish ∈ last.successors) : Whole tokens units

-- What stands between the brackets of a group: one level, or the two bounds of a slice.
inductive Within : Bool → List Token → Closing → Prop
  | level {bound tokens units found} (level : Whole tokens units) (fits : found.Fits bound units) :
      Within bound tokens found
  | slice {bound lower lowerUnits mark upper upperUnits} (lower_level : Whole lower lowerUnits)
      (lower_marks : marks lowerUnits = []) (mark_form : mark.form = .sliceMark)
      (upper_level : Whole upper upperUnits) (upper_marks : marks upperUnits = []) :
      Within bound (lower ++ mark :: upper)
        (.subscript (.slice (!lower.isEmpty) (!upper.isEmpty)))

end

-- What a token does to the count of a level.
inductive Separators.Reads : Separators → Form → Separators → Prop
  | other {separators form} (plain : form.isMark = false) : Reads separators form separators
  | item (count : Nat) : Reads (.items count) (.binary .collect) (.items (count + 1))
  | pair (count : Nat) : Reads (.pairs count false) (.binary .collect) (.pairs count true)
  | value (count : Nat) : Reads (.pairs count true) (.ternary .pair) (.pairs (count + 1) false)

-- A token that is no part of a group, and the cursor behind it.
structure Cursor.Takes (cur : Cursor) (form : Form) (next : Cursor) : Prop where
  plain : form.IsPlain
  callee : next.callee ≠ .binder
  reads : cur.separators.Reads form next.separators

namespace Cursor

variable {cur next : Cursor} {form : Form} {extra : Nat}

theorem takes_of_token {found : Form} {width : Nat}
    (h : cur.token found width = some (.token form extra next)) (hplain : found.IsPlain)
    (hmark : found.isMark = false) : cur.Takes form next := by
  obtain ⟨rfl, -, rfl⟩ := token_eq_some h
  exact ⟨hplain, by simp, .other hmark⟩

theorem takes_of_comma (h : cur.comma = .ok (some (.token form extra next))) :
    cur.Takes form next := by
  simp only [comma] at h
  split at h
  · exact takes_of_token (Except.ok.inj h) trivial rfl
  · split at h
    · cases h
    · exact takes_of_token (Except.ok.inj h) trivial rfl
    · rename_i count hitems
      obtain ⟨rfl, -, rfl⟩ := token_eq_some (Except.ok.inj h)
      refine ⟨trivial, by simp, ?_⟩
      rw [hitems]
      exact .item count
    · cases h
    · rename_i count hpairs
      obtain ⟨rfl, -, rfl⟩ := token_eq_some (Except.ok.inj h)
      refine ⟨trivial, by simp, ?_⟩
      rw [hpairs]
      exact .pair count

theorem takes_of_colon {level : Level} (h : cur.colon level = .ok (some (.token form extra next))) :
    cur.Takes form next := by
  simp only [colon] at h
  split at h
  · obtain ⟨rfl, -, rfl⟩ := token_eq_some (Except.ok.inj h)
    exact ⟨trivial, by simp, .other rfl⟩
  · cases h
  · rename_i count _ hpairs
    obtain ⟨rfl, -, rfl⟩ := token_eq_some (Except.ok.inj h)
    refine ⟨trivial, by simp, ?_⟩
    rw [hpairs]
    exact .value count
  · split at h <;> cases h

theorem takes_of_nameMove {text : List Char} (h : cur.nameMove text = some (.token form extra next)) :
    cur.Takes form next := by
  obtain ⟨word, -, h⟩ := Option.bind_eq_some_iff.mp h
  simp only at h
  split at h
  · cases h
  · split at h
    · cases h
    · cases h
      refine ⟨trivial, ?_, .other rfl⟩
      split <;> simp

end Cursor

theorem takes_of_recognise {setup : Setup} {level : Level} {cur next : Cursor} {text : List Char}
    {kind : TokenKind} {form : Form} {extra : Nat}
    (h : recognise setup level cur text kind = .ok (some (.token form extra next))) :
    cur.Takes form next := by
  cases kind with
  | start => cases h
  | stringLiteral =>
      simp only [recognise, Cursor.stringToken] at h
      split at h
      · cases h
      · cases h
      · exact Cursor.takes_of_token (Except.ok.inj h) trivial rfl
  | number =>
      obtain ⟨⟨value, width⟩, -, h⟩ := Option.bind_eq_some_iff.mp (Except.ok.inj h)
      simp only [Option.ite_none_right_eq_some] at h
      exact Cursor.takes_of_token h.2 trivial rfl
  | name => exact Cursor.takes_of_nameMove (Except.ok.inj h)
  | substArgs | subExpr | callArgs | listLiteral | dictLiteral | subscript =>
      simp only [recognise, Cursor.groupMove, Except.ok.injEq] at h
      split at h <;> cases h
  | finish =>
      simp only [recognise, Cursor.finishMove, Except.ok.injEq] at h
      split at h <;> cases h
  | substOperator | dollar | dot =>
      simp only [recognise, Except.ok.injEq, Option.ite_none_right_eq_some] at h
      exact Cursor.takes_of_token h.2 trivial rfl
  | postfixOp | prefixOp =>
      simp only [recognise, Cursor.stepMove, Except.ok.injEq] at h
      split at h
      · exact Cursor.takes_of_token h trivial rfl
      · simp only [Option.ite_none_right_eq_some] at h
        exact Cursor.takes_of_token h.2 trivial rfl
  | memberName | dollarName | unaryOp =>
      obtain ⟨word, -, htoken⟩ := Option.bind_eq_some_iff.mp (Except.ok.inj h)
      exact Cursor.takes_of_token htoken trivial rfl
  | assignOp =>
      simp only [recognise, Except.ok.injEq, Option.ite_none_right_eq_some] at h
      obtain ⟨⟨spelling, op⟩, -, htoken⟩ := Option.bind_eq_some_iff.mp h.2
      exact Cursor.takes_of_token htoken trivial rfl
  | binaryOp =>
      simp only [recognise, Cursor.binaryMove] at h
      split at h
      · exact Cursor.takes_of_comma h
      · split at h
        · cases h
        · obtain ⟨⟨spelling, op⟩, hspelled, htoken⟩ :=
            Option.bind_eq_some_iff.mp (Except.ok.inj h)
          have hmark : ∀ entry ∈ Operator.binarySpellings,
              (Form.binary entry.2).isMark = false := by decide
          exact Cursor.takes_of_token htoken trivial (hmark _ (mem_of_spelled? hspelled))
  | ternaryOp =>
      simp only [recognise, Cursor.ternaryMove] at h
      split at h
      · obtain ⟨rfl, -, rfl⟩ := Cursor.token_eq_some (Except.ok.inj h)
        exact ⟨trivial, by simp, .other rfl⟩
      · split at h
        · exact Cursor.takes_of_colon h
        · cases h

-- The marks that are still to come in a level with this count, if it ends with so many items.
def Separators.Awaits (found : List Form) (items : Nat) : Separators → Prop
  | sequence | terminate => found = [] ∧ items = 0
  | .items count => ∃ more, items = count + more ∧ found = List.replicate more (.binary .collect)
  | pairs count true => ∃ more, items = count + more ∧ 0 < more ∧ found = pairMarks more
  | pairs count false =>
      ∃ more, items = count + more ∧ .ternary .pair :: found = pairMarks (more + 1)

theorem Separators.awaits_nil {separators : Separators} {items : Nat}
    (h : separators.items? = some items) : separators.Awaits [] items := by
  match separators with
  | sequence | terminate => exact ⟨rfl, (Option.some.inj h).symm⟩
  | .items count => exact ⟨0, (Option.some.inj h).symm, rfl⟩
  | pairs count true => cases h
  | pairs count false => exact ⟨0, (Option.some.inj h).symm, rfl⟩

theorem pairMarks_succ (pairs : Nat) : pairMarks (pairs + 2) =
    .ternary .pair :: .binary .collect :: pairMarks (pairs + 1) := rfl

theorem Separators.Reads.awaits {separators next : Separators} {form : Form} {units : List Form}
    {items : Nat} (h : separators.Reads form next) (hnext : next.Awaits (marks units) items) :
    separators.Awaits (marks (form :: units)) items := by
  cases h with
  | other hplain =>
      have hmarks : marks (form :: units) = marks units := by simp [marks, hplain]
      rw [hmarks]
      exact hnext
  | item count =>
      obtain ⟨more, rfl, hmarks⟩ := hnext
      refine ⟨more + 1, by omega, ?_⟩
      rw [List.replicate_succ, ← hmarks]
      rfl
  | pair count =>
      obtain ⟨more, rfl, hpos, hmarks⟩ := hnext
      obtain ⟨more, rfl⟩ := Nat.exists_eq_succ_of_ne_zero (Nat.ne_of_gt hpos)
      refine ⟨more + 1, rfl, ?_⟩
      rw [pairMarks_succ, ← hmarks]
      rfl
  | value count =>
      obtain ⟨more, rfl, hmarks⟩ := hnext
      refine ⟨more + 1, by omega, Nat.succ_pos more, ?_⟩
      rw [← hmarks]
      rfl

-- What a level is made of from the cursor on.
def Outlined (level : Level) (cur : Cursor) (_ : List Char) (tokens : List Token)
    (ending : LevelEnd) : Prop :=
  (cur.callee = .binder → cur.state = .name) → ∃ inner units last,
    tokens = inner ++ level.endTokens ending.stop ending.items ∧
      Units cur.state (decide (cur.callee = .binder)) inner units last ∧
      .finish ∈ last.successors ∧ cur.separators.Awaits (marks units) ending.items

-- A level that starts and ends is not empty, because nothing may end where it starts.
theorem Units.ne_nil {tokens : List Token} {units : List Form} {last : TokenKind}
    (h : Units .start false tokens units last) (hends : .finish ∈ last.successors) :
    tokens ≠ [] ∧ units ≠ [] := by
  cases h with
  | done => exact absurd hends (by decide)
  | token | binder | group => exact ⟨by simp, by simp⟩

section Inside

variable {separators : Separators} {stopAtColon : Bool} {depth pos : Nat} {inside : List Char}
  {tokens : List Token}

theorem Outlined.whole {ending : LevelEnd}
    (h : Outlined ⟨false, stopAtColon, depth⟩ (Cursor.start pos separators) inside tokens ending) :
    ∃ units, Whole tokens units ∧ (!tokens.isEmpty) = true ∧ units ≠ [] ∧
      separators.Awaits (marks units) ending.items := by
  obtain ⟨inner, units, last, htokens, hunits, hends, hawaits⟩ := h fun hcallee => by cases hcallee
  obtain rfl : tokens = inner := by simpa [Level.endTokens] using htokens
  obtain ⟨htokens, hne⟩ := hunits.ne_nil hends
  exact ⟨units, .full hunits hends, by simp [htokens], hne, hawaits⟩

theorem Part.whole {found : Option LevelEnd}
    (h : Part (fun pos => Outlined ⟨false, stopAtColon, depth⟩ (Cursor.start pos separators)) pos
      inside tokens found) :
    ∃ units, Whole tokens units ∧ found.isSome = !tokens.isEmpty ∧
      (units = [] ∧ found = none ∨
        units ≠ [] ∧ separators.Awaits (marks units) (countItems found)) := by
  cases h with
  | blank => exact ⟨[], .empty, rfl, Or.inl ⟨rfl, rfl⟩⟩
  | level hlevel =>
      obtain ⟨units, hwhole, htokens, hunits, hawaits⟩ := hlevel.whole
      exact ⟨units, hwhole, htokens.symm, Or.inr ⟨hunits, hawaits⟩⟩

-- Commas are the only marks between items.
theorem Part.items {found : Option LevelEnd}
    (h : Part (fun pos => Outlined ⟨false, stopAtColon, depth⟩ (Cursor.start pos (.items 1))) pos
      inside tokens found) :
    ∃ units, Whole tokens units ∧ .ternary .pair ∉ units ∧ countItems found = itemCount units := by
  obtain ⟨units, hwhole, -, ⟨rfl, rfl⟩ | ⟨hunits, more, hitems, hmarks⟩⟩ := h.whole
  · exact ⟨[], hwhole, by simp, rfl⟩
  · refine ⟨units, hwhole, ?_, ?_⟩
    · intro hpair
      have hmem : Form.ternary .pair ∈ marks units := List.mem_filter.mpr ⟨hpair, rfl⟩
      rw [hmarks] at hmem
      cases List.eq_of_mem_replicate hmem
    · have hcount : units.count (.binary .collect) = more := by
        have hfilter : (marks units).count (.binary .collect) = units.count (.binary .collect) :=
          List.count_filter rfl
        rw [← hfilter, hmarks, List.count_replicate_self]
      rw [hitems, itemCount, if_neg hunits, hcount, Nat.add_comm]

theorem Part.pairs {found : Option LevelEnd}
    (h : Part (fun pos => Outlined ⟨false, stopAtColon, depth⟩ (Cursor.start pos (.pairs 0 true)))
      pos inside tokens found) :
    ∃ units, Whole tokens units ∧ marks units = pairMarks (countItems found) ∧
      (countItems found = 0 ↔ units = []) := by
  obtain ⟨units, hwhole, -, ⟨rfl, rfl⟩ | ⟨hunits, more, hitems, hpos, hmarks⟩⟩ := h.whole
  · exact ⟨[], hwhole, rfl, by simp [countItems]⟩
  · obtain rfl : countItems found = more := hitems.trans (Nat.zero_add more)
    exact ⟨units, hwhole, hmarks, by simp [hunits, Nat.ne_of_gt hpos]⟩

-- An upper bound of a slice has no marks.
theorem Part.bound {found : Option LevelEnd}
    (h : Part (fun pos => Outlined ⟨false, stopAtColon, depth⟩ (Cursor.start pos .sequence)) pos
      inside tokens found) :
    ∃ units, Whole tokens units ∧ marks units = [] ∧ found.isSome = !tokens.isEmpty := by
  obtain ⟨units, hwhole, hsome, ⟨rfl, -⟩ | ⟨-, hmarks, -⟩⟩ := h.whole
  · exact ⟨[], hwhole, rfl, hsome⟩
  · exact ⟨units, hwhole, hmarks, hsome⟩

end Inside

theorem Inside.within {depth pos : Nat} {group : Group} {callee : Callee} {inside : List Char}
    {tokens : List Token} {found : Closing}
    (h : Inside (fun separators stopAtColon pos =>
        Outlined ⟨false, stopAtColon, depth⟩ (Cursor.start pos separators))
      group callee pos inside tokens found) :
    found.group = group ∧ Within (decide (callee = .binder)) tokens found := by
  cases h with
  | subExpr hlevel =>
      obtain ⟨units, hwhole, -, hunits, hmarks, -⟩ := hlevel.whole
      exact ⟨rfl, .level hwhole ⟨hunits, hmarks⟩⟩
  | substArgs hpart | list hpart =>
      obtain ⟨units, hwhole, hpair, hcount⟩ := hpart.items
      exact ⟨rfl, .level hwhole ⟨hpair, hcount⟩⟩
  | dict hpart =>
      obtain ⟨units, hwhole, hmarks, hempty⟩ := hpart.pairs
      exact ⟨rfl, .level hwhole ⟨hmarks, hempty⟩⟩
  | call _ hpart =>
      obtain ⟨units, hwhole, hpair, hcount⟩ := hpart.items
      exact ⟨rfl, .level hwhole ⟨hpair, by rw [hcount]⟩⟩
  | noText => exact ⟨rfl, .level .empty ⟨by simp, rfl⟩⟩
  | text verbatim =>
      have hfirst : TokenKind.stringLiteral ∈ TokenKind.start.successors := by decide
      have hlast : TokenKind.finish ∈ TokenKind.stringLiteral.successors := by decide
      exact ⟨rfl, .level (.full (.token hfirst trivial (.done _)) hlast) ⟨by simp, rfl⟩⟩
  | index _ hlevel =>
      obtain ⟨units, hwhole, -, hunits, hmarks, -⟩ := hlevel.whole
      exact ⟨rfl, .level hwhole ⟨rfl, hunits, hmarks⟩⟩
  | upper _ hpart =>
      obtain ⟨units, hwhole, hmarks, hsome⟩ := hpart.bound
      rw [hsome]
      exact ⟨rfl, .slice .empty rfl rfl hwhole hmarks⟩
  | slice _ hlevel _ _ hpart =>
      obtain ⟨lowerUnits, hlower, hne, -, hlowerMarks, -⟩ := hlevel.whole
      obtain ⟨upperUnits, hupper, hupperMarks, hsome⟩ := hpart.bound
      rw [hsome, ← hne]
      exact ⟨rfl, .slice hlower hlowerMarks rfl hupper hupperMarks⟩

theorem outlined_rules (setup : Setup) : ScanRules setup Outlined where
  finish := by
    intro level cur items rest hcallee hends hitems _ _
    refine ⟨[], [], cur.state, rfl, ?_, hends, Separators.awaits_nil hitems⟩
    rw [decide_eq_false hcallee]
    exact .done _
  skip := fun _ hrest => hrest
  token := by
    intro level cur c rest form extra next tokens ending _ hmove hrest _
    obtain ⟨hcallee, hsuccessor, hfound⟩ := mem_successors_of_nextMove hmove (by simp)
    have htakes := takes_of_recognise hfound
    obtain ⟨inner, units, last, rfl, hunits, hends, hawaits⟩ :=
      hrest fun hbinder => (htakes.callee hbinder).elim
    refine ⟨_ :: inner, form :: units, last, rfl, ?_, hends, htakes.reads.awaits hawaits⟩
    rw [decide_eq_false htakes.callee] at hunits
    rw [decide_eq_false hcallee]
    exact .token hsuccessor htakes.plain hunits
  binder := by
    intro level cur c rest stem extra tokens ending _ hmove hrest _
    obtain ⟨hcallee, hsuccessor, -⟩ := mem_successors_of_nextMove hmove (by simp)
    obtain ⟨inner, units, last, rfl, hunits, hends, hawaits⟩ := hrest fun _ => rfl
    refine ⟨_ :: _ :: inner, .name :: .string true :: units, last, rfl, ?_, hends, hawaits⟩
    rw [decide_eq_false hcallee]
    exact .binder hsuccessor rfl rfl hunits
  group := by
    intro level cur group inside rest closing tokens more ending hmove _ hinside hmore hname
    obtain ⟨rfl, hwithin⟩ := hinside.within
    obtain ⟨inner, units, last, rfl, hunits, hends, hawaits⟩ :=
      hmore fun hbinder => by cases hbinder
    refine ⟨_, .closing closing :: units, last, (List.append_assoc _ (_ :: inner) _).symm, ?_,
      hends, hawaits⟩
    obtain ⟨kind, hmem, hfound⟩ := nextMove_eq_ok hmove
    obtain rfl := kind_of_recognise hfound
    refine .group ?_ ?_ rfl rfl hwithin hunits
    · rcases Cursor.mem_candidates hmem with ⟨hbinder, hcall⟩ | ⟨-, hsuccessor⟩
      · have hkind : closing.group.kind = .callArgs := hcall
        rw [hname hbinder, hkind]
        decide
      · exact hsuccessor
    · intro hbound
      rcases Cursor.mem_candidates hmem with ⟨-, hcall⟩ | ⟨hcallee, -⟩
      · exact Group.eq_call_of_kind hcall
      · exact (hcallee (of_decide_eq_true hbound)).elim

-- The units of a formula and its end. Outside brackets only the inside of a dictionary has marks.
theorem tokenize_grammar {setup : Setup} {maxTokens : Option Nat} {text : List Char}
    {tokenized : Tokenized} (h : tokenize setup maxTokens text = .ok tokenized) :
    ∃ inner units last,
      tokenized.tokens = inner ++ [⟨tokenized.stop, [], .finish tokenized.items⟩] ∧
      Units .start false inner units last ∧ .finish ∈ last.successors ∧
      if setup.permissions.dict then 0 < tokenized.items ∧ marks units = pairMarks tokenized.items
      else tokenized.items = 0 ∧ marks units = [] := by
  obtain ⟨left, houtlined⟩ := (outlined_rules setup).of_tokenize h
  obtain ⟨inner, units, last, htokens, hunits, hends, hawaits⟩ :=
    houtlined fun hbinder => by cases hbinder
  refine ⟨inner, units, last, htokens, hunits, hends, ?_⟩
  simp only [Cursor.start, Permissions.separators] at hawaits
  split
  · rename_i hdict
    rw [if_pos hdict] at hawaits
    obtain ⟨pairs, hitems, hpos, hmarks⟩ := hawaits
    obtain rfl : tokenized.items = pairs := hitems.trans (Nat.zero_add pairs)
    exact ⟨hpos, hmarks⟩
  · rename_i hdict
    rw [if_neg hdict] at hawaits
    -- A comma is an operator here, or ends the formula, and neither is counted.
    split at hawaits
    · exact ⟨hawaits.2, hawaits.1⟩
    · exact ⟨hawaits.2, hawaits.1⟩

-- A bound variable, commas and colons of every meaning, and a slice inside a dictionary.
def nestedFormula : List Char :=
  "int_dx(\x7b'k': a ? b, 1 : c, 2: [p ? q : r, s]\x7d, unit( m/s ), f())[x : y ? 1 : 2] ; rest".toList

theorem tokenize_grammar_nested : ∃ tokenized inner units last,
    tokenize ⟨{}, scanNumber, none⟩ none nestedFormula = .ok tokenized ∧
      tokenized.tokens = inner ++ [⟨tokenized.stop, [], .finish tokenized.items⟩] ∧
      Units .start false inner units last ∧ .finish ∈ last.successors ∧
      tokenized.items = 0 ∧ marks units = [] := by
  have hok : (tokenize ⟨{}, scanNumber, none⟩ none nestedFormula).isOk = true := by
    decide +kernel
  obtain ⟨tokenized, h⟩ := exists_ok hok
  obtain ⟨inner, units, last, hgrammar⟩ := tokenize_grammar h
  exact ⟨tokenized, inner, units, last, h, hgrammar⟩

end FormulaCode
