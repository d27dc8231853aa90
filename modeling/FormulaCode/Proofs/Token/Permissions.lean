import FormulaCode.Proofs.Token.Extent
import FormulaCode.Proofs.Token.Limits
import FormulaCode.Proofs.Token.Recognise

namespace FormulaCode

-- What is allowed stays allowed.
instance : LE Permissions :=
  ⟨fun permissions wide => (permissions.dollar = true → wide.dollar = true) ∧
    (permissions.assignment = true → wide.assignment = true) ∧
    (permissions.commaOperator = true → wide.commaOperator = true) ∧
    permissions.dict = wide.dict⟩

-- Outside brackets a comma may become an operator.
def Separators.grant (comma : Bool) : Separators → Separators
  | terminate => if comma then sequence else terminate
  | separators => separators

def Cursor.grant (comma : Bool) (cur : Cursor) : Cursor :=
  { cur with separators := cur.separators.grant comma }

theorem Cursor.grant_skip (comma : Bool) (cur : Cursor) (width : Nat) :
    { cur.grant comma with pos := (cur.grant comma).pos + width } =
      ({ cur with pos := cur.pos + width } : Cursor).grant comma := rfl

def Move.grant (comma : Bool) : Move → Move
  | token form extra next => token form extra (next.grant comma)
  | move => move

theorem Permissions.grant_separators {permissions wide : Permissions} (hle : permissions ≤ wide) :
    permissions.separators.grant wide.commaOperator = wide.separators := by
  obtain ⟨-, -, hcomma, hdict⟩ := hle
  simp only [separators, ← hdict]
  cases permissions.dict with
  | true => rfl
  | false =>
      cases hold : permissions.commaOperator with
      | true => simp [hcomma hold, Separators.grant]
      | false => rfl

theorem Separators.items?_grant (comma : Bool) (separators : Separators) :
    (separators.grant comma).items? = separators.items? := by
  cases separators with
  | terminate => cases comma <;> rfl
  | _ => rfl

-- What may be found in a text with more permissions, and is not found without them.
def TokenKind.IsGranted (text : List Char) : TokenKind → Prop
  | dollar => True
  | binaryOp => text.head? = some ','
  | assignOp => (assignment? text).isSome = true
  | _ => False

-- The order in which kinds are tried: nothing comes after a column reference or an end, only an
-- end after an assignment, and no value after an operator.
theorem TokenKind.pairwise_successors (state : TokenKind) :
    state.successors.Pairwise fun first later =>
      first ≠ .dollar ∧ first ≠ .finish ∧ (first = .assignOp → later = .finish) ∧
        (first = .binaryOp →
          later ∈ [ternaryOp, callArgs, subscript, dot, assignOp, finish]) := by
  cases state <;> decide

-- An assignment begins with an equals sign, or with an operator and an equals sign behind it.
theorem assignment?_cases {text : List Char} (h : (assignment? text).isSome = true) :
    (text.head? = some '=' ∧ spelled? Operator.binarySpellings text = none) ∨
      ∃ spelling op more, spelled? Operator.binarySpellings text = some (spelling, op) ∧
        spelling ≠ [] ∧ text = spelling ++ '=' :: more := by
  have htable : ∀ entry ∈ Assignment.spellings, entry.1 = ['='] ∨
      ∃ op, entry.1.dropLast ≠ [] ∧ entry.1 = entry.1.dropLast ++ ['='] ∧
        ∀ more, spelled? Operator.binarySpellings (entry.1 ++ more) =
          some (entry.1.dropLast, op) := by
    simp only [Assignment.spellings, List.forall_mem_cons, List.not_mem_nil, false_imp_iff,
      implies_true, and_true]
    refine ⟨?_, ?_, ?_, ?_, ?_, ?_, ?_, ?_, ?_, ?_, ?_, Or.inl trivial⟩
    all_goals exact Or.inr ⟨_, by simp, rfl, fun _ => rfl⟩
  obtain ⟨⟨spelling, op⟩, hfound⟩ := Option.isSome_iff_exists.mp h
  unfold assignment? at hfound
  split at hfound
  · cases hfound
  · rename_i hcomparison
    have hstarts := List.find?_some hfound
    simp only [Bool.and_eq_true] at hstarts
    obtain ⟨more, rfl⟩ := List.isPrefixOf_iff_prefix.mp hstarts.1
    rcases htable _ (mem_of_spelled? hfound) with hequals | ⟨operator, hne, hspelling, hall⟩
    · left
      simp only at hequals
      subst hequals
      refine ⟨rfl, ?_⟩
      cases more with
      | nil => rfl
      | cons c rest =>
          have hc : '=' ≠ c := by
            rintro rfl
            exact hcomparison rfl
          simp [spelled?, Operator.binarySpellings, hc]
    · right
      have htext : spelling ++ more = spelling.dropLast ++ ['='] ++ more :=
        congrArg (· ++ more) hspelling
      exact ⟨spelling.dropLast, operator, more, hall more, hne,
        htext.trans (List.append_assoc _ _ _)⟩

section Grant

variable {setup : Setup} {wide : Permissions} {level : Level} {cur : Cursor} {text : List Char}
  {comma : Bool}

theorem colon_grant :
    (cur.grant comma).colon level = (cur.colon level).map (Option.map (Move.grant comma)) := by
  obtain ⟨pos, state, ternaries, separators, callee⟩ := cur
  cases ternaries with
  | succ ternaries => rfl
  | zero =>
      cases separators with
      | terminate =>
          cases comma
          all_goals
            simp only [Cursor.colon, Cursor.grant, Separators.grant, Bool.false_eq_true, if_false,
              if_true]
            split <;> rfl
      | sequence | items count =>
          simp only [Cursor.colon, Cursor.grant, Separators.grant]
          split <;> rfl
      | pairs count inKey => cases inKey <;> rfl

-- A comma in place of which an operator may stand now was no token before.
theorem comma_grant :
    (cur.grant comma).comma = cur.comma.map (Option.map (Move.grant comma)) ∨
      cur.comma = .ok none := by
  obtain ⟨pos, state, ternaries, separators, callee⟩ := cur
  cases ternaries with
  | succ ternaries => exact Or.inl rfl
  | zero =>
      cases separators with
      | terminate => exact Or.inr rfl
      | sequence | items count => exact Or.inl rfl
      | pairs count inKey => cases inKey <;> exact Or.inl rfl

theorem nameMove_grant :
    (cur.grant comma).nameMove text = (cur.nameMove text).map (Move.grant comma) := by
  simp only [Cursor.nameMove]
  cases word? text with
  | none => rfl
  | some word =>
      change ite _ _ _ = Option.map _ (ite _ _ _)
      split
      · rfl
      · split <;> rfl

theorem binaryMove_grant
    (hassignment : setup.permissions.assignment = true → wide.assignment = true) :
    (cur.grant comma).binaryMove { setup with permissions := wide } text =
        (cur.binaryMove setup text).map (Option.map (Move.grant comma)) ∨
      (text.head? = some ',' ∧ cur.binaryMove setup text = .ok none) ∨
      ((cur.grant comma).binaryMove { setup with permissions := wide } text = .ok none ∧
        (assignment? text).isSome = true ∧ TokenKind.assignOp ∈ cur.state.successors) := by
  have hstate : (cur.grant comma).state = cur.state := rfl
  simp only [Cursor.binaryMove, hstate]
  by_cases hcomma : text.head? = some ','
  · simp only [if_pos hcomma]
    rcases comma_grant with hsame | hnone
    · exact Or.inl hsame
    · exact Or.inr (Or.inl ⟨hcomma, hnone⟩)
  · simp only [if_neg hcomma]
    by_cases htaken : (wide.assignment && cur.state.successors.contains .assignOp &&
        (assignment? text).isSome) = true
    · right
      right
      rw [if_pos htaken]
      simp only [Bool.and_eq_true, List.contains_iff_mem] at htaken
      exact ⟨rfl, htaken.2, htaken.1.2⟩
    · left
      have hold : ¬(setup.permissions.assignment && cur.state.successors.contains .assignOp &&
          (assignment? text).isSome) = true := by
        simp only [Bool.and_eq_true] at htaken ⊢
        exact fun h => htaken ⟨⟨hassignment h.1.1, h.1.2⟩, h.2⟩
      rw [if_neg htaken, if_neg hold]
      cases spelled? Operator.binarySpellings text <;> rfl

-- More permissions change what is found only where they add something, or where an assignment
-- takes the place of an operator that it begins with.
theorem recognise_grant (hle : setup.permissions ≤ wide) (kind : TokenKind) :
    recognise { setup with permissions := wide } level (cur.grant comma) text kind =
        (recognise setup level cur text kind).map (Option.map (Move.grant comma)) ∨
      (kind.IsGranted text ∧ recognise setup level cur text kind = .ok none) ∨
      (kind = .binaryOp ∧
        recognise { setup with permissions := wide } level (cur.grant comma) text kind = .ok none ∧
        (assignment? text).isSome = true ∧ TokenKind.assignOp ∈ cur.state.successors) := by
  obtain ⟨hdollar, hassignment, -, -⟩ := hle
  cases kind with
  | start => exact Or.inl rfl
  | stringLiteral =>
      left
      simp only [recognise, Cursor.stringToken]
      split <;> rfl
  | substOperator | dot =>
      left
      simp only [recognise]
      split <;> rfl
  | substArgs | subExpr | callArgs | listLiteral | dictLiteral | subscript =>
      left
      simp only [recognise, Cursor.groupMove]
      split <;> rfl
  | postfixOp | prefixOp =>
      left
      simp only [recognise, Cursor.stepMove]
      split
      · rfl
      · split <;> rfl
  | name => exact Or.inl (congrArg Except.ok nameMove_grant)
  | memberName | dollarName =>
      left
      simp only [recognise]
      cases word? text <;> rfl
  | unaryOp =>
      left
      simp only [recognise]
      cases spelled? Operator.unarySpellings text <;> rfl
  | ternaryOp =>
      left
      simp only [recognise, Cursor.ternaryMove]
      split
      · rfl
      · split
        · exact colon_grant
        · rfl
  | number =>
      left
      simp only [recognise, Cursor.numberMove]
      cases setup.scanner text with
      | none => rfl
      | some found =>
          change Except.ok (ite _ _ _) = Except.ok (Option.map _ (ite _ _ _))
          split <;> rfl
  | finish =>
      left
      change Except.ok (cur.finishMove level text) = Except.ok (Option.map _ _)
      unfold Cursor.finishMove
      split <;> rfl
  | dollar =>
      cases hold : setup.permissions.dollar with
      | true =>
          left
          simp only [recognise, hold, hdollar hold]
          split <;> rfl
      | false =>
          right
          left
          simp [recognise, hold, TokenKind.IsGranted]
  | assignOp =>
      cases hold : setup.permissions.assignment with
      | true =>
          left
          simp only [recognise, hold, hassignment hold, if_true]
          cases assignment? text <;> rfl
      | false =>
          cases hfound : assignment? text with
          | none =>
              left
              simp [recognise, hold, hfound, Except.map]
          | some entry =>
              right
              left
              simp [recognise, hold, TokenKind.IsGranted, hfound]
  | binaryOp =>
      rcases binaryMove_grant hassignment with hsame | hnone | hassign
      · exact Or.inl hsame
      · exact Or.inr (Or.inl hnone)
      · exact Or.inr (Or.inr ⟨rfl, hassign⟩)

-- A comma begins nothing but an operator.
theorem finish_of_comma {kind : TokenKind} {move : Move} (hcomma : text.head? = some ',')
    (hkind : kind ∈ [TokenKind.ternaryOp, .callArgs, .subscript, .dot, .assignOp, .finish])
    (hmove : recognise setup level cur text kind = .ok (some move)) : kind = .finish := by
  obtain ⟨rest, rfl⟩ : ∃ rest, text = ',' :: rest := by
    cases text with
    | nil => cases hcomma
    | cons c rest => exact ⟨rest, by rw [Option.some.inj hcomma]⟩
  simp only [List.mem_cons, List.not_mem_nil, or_false] at hkind
  rcases hkind with rfl | rfl | rfl | rfl | rfl | rfl
  · cases hmove
  · cases hmove
  · cases hmove
  · cases hmove
  · simp only [recognise] at hmove
    split at hmove
    · cases hmove
    · cases hmove
  · rfl

-- A level that ends in the middle of its text is outside brackets, or ends at a colon.
theorem top_of_finish {c : Char} {rest : List Char} (hc : c ≠ ':') {move : Move}
    (hmove : recognise setup level cur (c :: rest) .finish = .ok (some move)) :
    level.top = true ∧ move = .finish := by
  simp only [recognise, Cursor.finishMove, Except.ok.injEq, Option.ite_none_right_eq_some,
    Option.some.injEq] at hmove
  exact ⟨by simpa [hc] using hmove.1, hmove.2.symm⟩

theorem pairwise_candidates (cur : Cursor) :
    cur.candidates.Pairwise fun first later =>
      first ≠ .dollar ∧ first ≠ .finish ∧ (first = .assignOp → later = .finish) ∧
        (first = .binaryOp →
          later ∈ [TokenKind.ternaryOp, .callArgs, .subscript, .dot, .assignOp, .finish]) := by
  unfold Cursor.candidates
  split
  · exact List.pairwise_singleton _ _
  · exact cur.state.pairwise_successors

theorem binaryOp_mem_of_assignOp_mem (h : TokenKind.assignOp ∈ cur.candidates) :
    TokenKind.binaryOp ∈ cur.candidates := by
  unfold Cursor.candidates at h ⊢
  split at h
  · cases h with
    | tail _ h => cases h
  · revert h
    cases cur.state <;> decide

theorem head?_ne_comma {entry : List Char × Operator}
    (h : spelled? Operator.binarySpellings text = some entry) : text.head? ≠ some ',' := by
  intro hcomma
  cases text with
  | nil => cases hcomma
  | cons c rest =>
      obtain rfl := Option.some.inj hcomma
      cases h

-- An operator gives way to an assignment that begins with it, if there may be one.
theorem binaryMove_of_spelled {spelling : List Char} {op : Operator}
    (hspelled : spelled? Operator.binarySpellings text = some (spelling, op)) :
    cur.binaryMove setup text =
      if setup.permissions.assignment && cur.state.successors.contains .assignOp &&
          (assignment? text).isSome then .ok none
      else .ok (some (.token (.binary op) (spelling.length - 1) { cur with callee := .plain })) := by
  simp only [Cursor.binaryMove, if_neg (head?_ne_comma hspelled), hspelled]
  rfl

theorem assignment_forbidden (hfound : (assignment? text).isSome = true)
    (hnone : recognise setup level cur text .assignOp = .ok none) :
    setup.permissions.assignment = false := by
  obtain ⟨entry, hentry⟩ := Option.isSome_iff_exists.mp hfound
  cases hallowed : setup.permissions.assignment with
  | false => rfl
  | true =>
      simp only [recognise, hallowed, if_true, hentry] at hnone
      cases hnone

-- With more permissions the next move stays what it was, except where the formula ended in front
-- of a comma or of an equals sign, or where an operator was read with an equals sign behind it.
theorem nextMove_grant (hle : setup.permissions ≤ wide) {move : Move}
    (h : nextMove setup level cur text = .ok move) :
    nextMove { setup with permissions := wide } level (cur.grant comma) text =
        .ok (move.grant comma) ∨
      (move = .finish ∧ level.top = true ∧ ∃ c ∈ text.head?, c = ',' ∨ c = '=') ∨
      (∃ spelling op more, spelling ≠ [] ∧ text = spelling ++ '=' :: more ∧
        move = .token (.binary op) (spelling.length - 1) { cur with callee := .plain }) := by
  obtain ⟨before, kind, after, hcandidates, hbefore, hkind⟩ := nextMove_eq_ok_iff.mp h
  have hpairwise := pairwise_candidates cur
  rw [hcandidates, List.pairwise_append] at hpairwise
  by_cases hgranted : ∃ other ∈ before, other.IsGranted text
  · right
    left
    obtain ⟨other, hother, hgranted⟩ := hgranted
    obtain ⟨hdollar, -, hassign, hbinary⟩ := hpairwise.2.2 other hother kind List.mem_cons_self
    have hfinish : kind = .finish ∧ ∃ c ∈ text.head?, c = ',' ∨ c = '=' := by
      cases other with
      | dollar => exact absurd rfl hdollar
      | binaryOp => exact ⟨finish_of_comma hgranted (hbinary rfl) hkind, ',', hgranted, Or.inl rfl⟩
      | assignOp =>
          obtain rfl := hassign rfl
          rcases assignment?_cases hgranted with ⟨hhead, -⟩ | ⟨spelling, op, more, hspelled, -, -⟩
          · exact ⟨rfl, '=', hhead, Or.inr rfl⟩
          · -- An operator is tried first and would have been found.
            have hforbidden := assignment_forbidden hgranted (hbefore _ hother)
            have hmem : TokenKind.binaryOp ∈ before := by
              have hall : TokenKind.binaryOp ∈ cur.candidates :=
                binaryOp_mem_of_assignOp_mem (by simp [hcandidates, hother])
              rw [hcandidates, List.mem_append, List.mem_cons] at hall
              rcases hall with hall | hall | hall
              · exact hall
              · cases hall
              · exact absurd rfl ((List.pairwise_cons.mp hpairwise.2.1).1 _ hall).2.1
            have hfirst := hbefore _ hmem
            simp only [recognise, binaryMove_of_spelled hspelled, hforbidden] at hfirst
            cases hfirst
      | _ => cases hgranted
    obtain ⟨rfl, c, hc, hends⟩ := hfinish
    obtain ⟨rest, rfl⟩ : ∃ rest, text = c :: rest := by
      cases text with
      | nil => cases hc
      | cons d rest => exact ⟨rest, by rw [Option.some.inj hc]⟩
    have hcolon : c ≠ ':' := by
      rcases hends with rfl | rfl <;> decide
    obtain ⟨htop, rfl⟩ : level.top = true ∧ move = .finish := top_of_finish hcolon hkind
    exact ⟨rfl, htop, c, rfl, hends⟩
  · have hnone : ∀ other ∈ before, recognise { setup with permissions := wide } level
        (cur.grant comma) text other = .ok none := by
      intro other hother
      rcases recognise_grant hle other with hsame | ⟨hother', -⟩ | ⟨-, hlost, -⟩
      · rw [hsame, hbefore other hother]
        rfl
      · exact absurd ⟨other, hother, hother'⟩ hgranted
      · exact hlost
    rcases recognise_grant hle kind with hsame | ⟨-, hmissing⟩ | ⟨rfl, -, hassign, -⟩
    · left
      refine nextMove_eq before kind after hcandidates hnone ?_
      rw [hsame, hkind]
      rfl
    · rw [hkind] at hmissing
      cases hmissing
    · right
      right
      rcases assignment?_cases hassign with ⟨hhead, hspelled⟩ | ⟨spelling, op, more, hspelled, hne, htext⟩
      · simp only [recognise, Cursor.binaryMove, hhead, hspelled] at hkind
        split at hkind
        · rename_i hcomma
          cases hcomma
        · split at hkind <;> cases hkind
      · simp only [recognise, binaryMove_of_spelled hspelled] at hkind
        split at hkind
        · cases hkind
        · cases hkind
          exact ⟨spelling, op, more, hne, htext, rfl⟩

end Grant

section Levels

variable {setup : Setup} {wide : Permissions} {level : Level} {cur : Cursor} {text : List Char}
  {comma : Bool}

theorem endLevel_grant (left : Nat) :
    endLevel level (cur.grant comma) left = endLevel level cur left := by
  unfold endLevel
  rw [show (cur.grant comma).separators.items? = cur.separators.items? from
    Separators.items?_grant comma cur.separators]
  rfl

-- Nothing begins with an equals sign.
theorem nextMove_equals_ne_ok (hscanner : ∀ more, setup.scanner ('=' :: more) = none)
    (hstate : cur.state = .binaryOp) (hcallee : cur.callee = .plain) (more : List Char)
    (move : Move) : nextMove setup level cur ('=' :: more) ≠ .ok move := by
  intro h
  obtain ⟨kind, hmem, hkind⟩ := nextMove_eq_ok h
  simp only [Cursor.candidates, hcallee, hstate, TokenKind.successors, List.mem_cons,
    List.not_mem_nil, or_false] at hmem
  rcases hmem with rfl | rfl | rfl | rfl | rfl | rfl | rfl | rfl | rfl
  · rw [recognise_stringLiteral_none (by decide) (fun h => absurd h (by decide))] at hkind
    cases hkind
  · cases hkind
  · cases hkind
  · cases hkind
  · cases hkind
  · simp only [recognise, Cursor.numberMove, hscanner] at hkind
    cases hkind
  · cases hkind
  · cases hkind
  · simp [recognise] at hkind

-- What a formula ends in front of whatever is allowed in it.
def Closes (rest : List Char) : Prop :=
  ∀ c ∈ rest.head?, c ≠ ',' ∧ c ≠ '='

-- Outside brackets, what is left of a text when its level has ended.
def Level.Closes (level : Level) (text : List Char) (ending : LevelEnd) : Prop :=
  level.top = true → ∀ before rest, text = before ++ rest → rest.length = ending.left →
    FormulaCode.Closes rest

theorem Level.Closes.right {before rest : List Char} {ending : LevelEnd}
    (h : level.Closes (before ++ rest) ending) : level.Closes rest ending := by
  intro htop more last hrest hlength
  exact h htop (before ++ more) last (by rw [hrest, List.append_assoc]) hlength

-- A level that ends well is read in the same way with more permissions.
def ReadsAlike (setup : Setup) (wide : Permissions) (comma : Bool) (text : List Char) : Prop :=
  ∀ (level : Level) (cur : Cursor) (ending : LevelEnd),
    (scanLevel setup level cur text).outcome = .ok ending → level.Closes text ending →
    scanLevel { setup with permissions := wide } level (cur.grant comma) text =
      scanLevel setup level cur text

theorem scanNested_grant {inner : List Char} (ih : ReadsAlike setup wide comma inner)
    {separators : Separators} (hseparators : separators ≠ .terminate) {stopAtColon : Bool}
    {start : Nat} :
    (scanNested setup level separators stopAtColon start inner).Extends (fun _ => True)
      (scanNested { setup with permissions := wide } level separators stopAtColon start inner) := by
  refine Scan.Extends.bind (.refl _) fun _ => .of_ok fun ending hrun => ?_
  have hsame : (Cursor.start start separators).grant comma = Cursor.start start separators := by
    cases separators with
    | terminate => exact absurd rfl hseparators
    | _ => rfl
  have halike := ih ⟨false, stopAtColon, level.depth + 1⟩ (Cursor.start start separators) ending hrun
    (fun htop => by cases htop)
  rw [hsame] at halike
  exact halike

theorem scanMove_grant {c : Char} {rest : List Char}
    (ih : ∀ text : List Char, text.length ≤ rest.length → ReadsAlike setup wide comma text)
    {move : Move} {ending : LevelEnd}
    (hrun : (scanMove setup level cur c rest move).outcome = .ok ending)
    (hcloses : level.Closes (c :: rest) ending) :
    scanMove { setup with permissions := wide } level (cur.grant comma) c rest
      (move.grant comma) = scanMove setup level cur c rest move := by
  have hdrop : ∀ count, level.Closes (rest.drop count) ending := by
    intro count
    have hsplit : c :: rest = c :: rest.take count ++ rest.drop count := by simp
    exact Level.Closes.right (hsplit ▸ hcloses)
  have hshorter : ∀ count, (rest.drop count).length ≤ rest.length := by
    intro count
    simp
  cases move with
  | finish => exact endLevel_grant _
  | token form extra next =>
      exact congrArg (Scan.after _) (ih _ (hshorter extra) _ _ _ hrun (hdrop extra))
  | binder stem extra =>
      obtain ⟨_, -, hrun⟩ := Scan.exists_of_bind hrun
      obtain ⟨_, -, hrun⟩ := Scan.exists_of_bind hrun
      have hrest := ih _ (hshorter extra) _ _ _ hrun (hdrop extra)
      exact congrArg (fun run => Scan.after _ (Scan.after _ run)) hrest
  | group group =>
      simp only [scanMove, Move.grant] at hrun ⊢
      cases hmatch : matching? (· = group.opener) (· = group.closer) (c :: rest) with
      | none => rfl
      | some before =>
          simp only [hmatch] at hrun ⊢
          obtain ⟨_, -, hrun⟩ := Scan.exists_of_bind hrun
          obtain ⟨closing, hclosing, hrun⟩ := Scan.exists_of_bind hrun
          obtain ⟨_, -, hrun⟩ := Scan.exists_of_bind hrun
          have hinside : Scan.Extends (fun _ => True)
              (scanInside (rest.take (before.length - 1))
                (fun separators stopAtColon start inner _ =>
                  scanNested setup level separators stopAtColon start inner)
                group cur.callee (cur.pos + 1))
              (scanInside (rest.take (before.length - 1))
                (fun separators stopAtColon start inner _ => scanNested
                  { setup with permissions := wide } level separators stopAtColon start inner)
                group cur.callee (cur.pos + 1)) := by
            refine scanInside_extends ?_ group cur.callee (cur.pos + 1)
            intro separators stopAtColon start inner hinner hseparators
            refine scanNested_grant (ih inner ?_) hseparators
            rw [List.length_take] at hinner
            omega
          have hrest := ih _ (hshorter before.length) _ _ _ hrun (hdrop before.length)
          refine congrArg (Scan.after _) ?_
          change (scanInside _ _ group cur.callee (cur.pos + 1) >>= _) = _
          rw [hinside.eq_of_ok hclosing, Scan.bind_of_ok hclosing, Scan.bind_of_ok hclosing]
          exact congrArg (fun run => Scan.after _ (Scan.after _ run)) hrest

-- Permissions are only ever added to what is read.
theorem readsAlike (hle : setup.permissions ≤ wide)
    (hscanner : ∀ more, setup.scanner ('=' :: more) = none) (comma : Bool) (text : List Char) :
    ReadsAlike setup wide comma text := by
  induction text using scan_induction with
  | blank skipped hskipped =>
      intro level cur ending _ _
      rw [scanLevel_skip hskipped, scanLevel_skip hskipped, Cursor.grant_skip, scanLevel_end,
        scanLevel_end, endLevel_grant]
      rfl
  | step skipped c rest hskipped hc ih =>
      intro level cur ending hrun hcloses
      rw [scanLevel_skip hskipped, scanLevel_cons hc] at hrun
      rw [scanLevel_skip hskipped, scanLevel_skip hskipped, Cursor.grant_skip, scanLevel_cons hc,
        scanLevel_cons hc]
      obtain ⟨move, hmove, hrun⟩ := Scan.exists_of_bind hrun
      have hmove : nextMove setup level { cur with pos := cur.pos + byteLength skipped }
          (c :: rest) = .ok move := hmove
      rcases nextMove_grant hle hmove with
        halike | ⟨rfl, htop, d, hd, hends⟩ | ⟨spelling, op, more, hne, htext, rfl⟩
      · rw [halike, hmove]
        exact scanMove_grant ih hrun hcloses.right
      · -- What is left begins with a comma or with an equals sign.
        obtain ⟨hcomma, hequals⟩ :=
          hcloses htop _ (c :: rest) rfl (endLevel_eq_ok hrun).2.symm d hd
        rcases hends with rfl | rfl
        · exact absurd rfl hcomma
        · exact absurd rfl hequals
      · -- The operator would stand in front of an equals sign, and nothing begins with one.
        obtain ⟨_, -, hrun⟩ := Scan.exists_of_bind hrun
        have hafter : rest.drop (spelling.length - 1) = '=' :: more := by
          cases spelling with
          | nil => exact absurd rfl hne
          | cons first others =>
              obtain ⟨-, rfl⟩ := List.cons.inj htext
              simp
        rw [hafter, scanLevel_cons (by decide)] at hrun
        obtain ⟨next, hnext, -⟩ := Scan.exists_of_bind hrun
        exact absurd hnext (nextMove_equals_ne_ok hscanner rfl rfl more next)

end Levels

-- More permissions add to the formulas that can be read, and read the others as before. What is
-- behind the formula must not become part of it.
theorem tokenize_grant {setup : Setup} {wide : Permissions} (hle : setup.permissions ≤ wide)
    (hscanner : ∀ more, setup.scanner ('=' :: more) = none) {maxTokens : Option Nat}
    {text : List Char} {tokenized : Tokenized} (h : tokenize setup maxTokens text = .ok tokenized)
    (hcloses : ∀ before rest, text = before ++ rest → tokenized.stop = byteLength before →
      Closes rest) :
    tokenize { setup with permissions := wide } maxTokens text = .ok tokenized := by
  obtain ⟨ending, hrun, hfound⟩ := scanText_of_tokenize h
  rw [scanText_eq] at hrun
  obtain ⟨read, left, rfl, hleft, hread⟩ := scanLevel_splits hrun
  have htop : Level.Closes ⟨true, false, 0⟩ (read ++ left) ending := by
    intro _ before rest htext hlength
    obtain ⟨rfl, rfl⟩ := List.append_inj' htext (hleft.trans hlength.symm)
    refine hcloses read left rfl ?_
    rw [hfound]
    exact hread.trans (Nat.zero_add _)
  have halike := readsAlike hle hscanner wide.commaOperator (read ++ left) _ _ ending hrun htop
  have hsame : scanText { setup with permissions := wide } (read ++ left) =
      scanText setup (read ++ left) := by
    rw [scanText_eq, scanText_eq, ← halike]
    simp only [Cursor.start, Cursor.grant, Permissions.grant_separators hle]
  rw [tokenize_eq, hsame, ← tokenize_eq]
  exact h

end FormulaCode
