import FormulaCode.Proofs.Literal
import FormulaCode.Proofs.Token.Reading
import FormulaCode.Proofs.Token.Recognise

namespace FormulaCode

-- The count of a level fits the number of values that are complete in it, of which it began with
-- `base`. `values` turns the count into a number of values.
def Separators.Tracks (base held : Nat) (values : Nat → Nat) : Separators → Prop
  | sequence | terminate => held = base ∧ values = fun _ => 1
  | items count => held + 1 = base + count ∧ values = id
  | pairs count inKey => held + (!inKey).toNat = base + 2 * count ∧ values = fun n => 2 * n

-- The cursor of a level and the frame of a reader agree. Only outside brackets no group is open,
-- and there nothing is counted.
structure Frame.Tracks (group : Option Group) (base : Nat) (values : Nat → Nat) (frame : Frame)
    (cur : Cursor) : Prop where
  inGroup : frame.group = group
  ternaries : frame.ternaries = cur.ternaries
  separators : cur.separators.Tracks base frame.held values
  outside : group = none → cur.separators = .sequence ∨ cur.separators = .terminate

-- The cursor may go on with a token.
def Cursor.Advances (scanner : NumberScanner) (group : Option Group) (base : Nat)
    (values : Nat → Nat) (frame : Frame) (frames : List Frame) (cur : Cursor) (token : Token)
    (next : Cursor) : Prop :=
  next.callee ≠ .binder ∧ ∃ later : Frame, later.Tracks group base values next ∧
    Reading.Next scanner ⟨cur.state, false, frame :: frames⟩ token
      ⟨token.kind, false, later :: frames⟩

namespace Cursor

variable {scanner : NumberScanner} {group : Option Group} {base : Nat} {values : Nat → Nat}
  {frame : Frame} {frames : List Frame} {cur : Cursor}

-- Most tokens leave the level as it is.
theorem advances_of_plain (form : Form) (h : frame.Tracks group base values cur) {pos : Nat}
    {text : List Char} (hsuccessor : form.kind ∈ cur.state.successors)
    (hplain : Token.Plain scanner ⟨pos, text, form⟩) {next : Cursor}
    (hternaries : next.ternaries = cur.ternaries) (hseparators : next.separators = cur.separators)
    (hcallee : next.callee ≠ .binder) :
    cur.Advances scanner group base values frame frames ⟨pos, text, form⟩ next := by
  exact ⟨hcallee, frame, ⟨h.inGroup, h.ternaries.trans hternaries.symm, hseparators ▸ h.separators,
    hseparators ▸ h.outside⟩, .plain hsuccessor hplain⟩

theorem token_eq_some {form found : Form} {width extra : Nat} {next : Cursor}
    (h : cur.token form width = some (.token found extra next)) :
    found = form ∧ extra = width - 1 ∧ next = { cur with callee := .plain } := by
  cases h
  exact ⟨rfl, rfl, rfl⟩

-- The tokens whose form alone says everything about them.
theorem advances_of_token (h : frame.Tracks group base values cur) {form : Form} {width extra : Nat}
    {next : Cursor} {found : Form} (htoken : cur.token form width = some (.token found extra next))
    (hsuccessor : form.kind ∈ cur.state.successors) {pos : Nat} {text : List Char}
    (hplain : Token.Plain scanner ⟨pos, text, form⟩) :
    cur.Advances scanner group base values frame frames ⟨pos, text, found⟩ next := by
  obtain ⟨rfl, rfl, rfl⟩ := token_eq_some htoken
  exact advances_of_plain _ h hsuccessor hplain rfl rfl (by simp)

theorem take_pred_cons (c : Char) (rest : List Char) {width : Nat} (h : 0 < width) :
    c :: rest.take (width - 1) = (c :: rest).take width := by
  obtain ⟨width, rfl⟩ := Nat.exists_eq_succ_of_ne_zero (Nat.ne_of_gt h)
  rfl

theorem advances_of_stringToken (h : frame.Tracks group base values cur)
    (hsuccessor : .stringLiteral ∈ cur.state.successors) {c : Char} {rest : List Char}
    {found : Form} {extra pos : Nat} {next : Cursor}
    (hmove : cur.stringToken (c :: rest) = .ok (some (.token found extra next))) :
    cur.Advances scanner group base values frame frames ⟨pos, c :: rest.take extra, found⟩ next := by
  simp only [stringToken] at hmove
  split at hmove
  · cases hmove
  · cases hmove
  · rename_i literal hliteral
    have htoken := Except.ok.inj hmove
    obtain ⟨lexeme, after, htext, hwidth, hagain⟩ := Literal.scan_eq_found hliteral
    refine advances_of_token h htoken hsuccessor fun _ => ⟨literal, ?_⟩
    obtain ⟨-, rfl, -⟩ := token_eq_some htoken
    rw [take_pred_cons c rest literal.width_pos, htext, ← hwidth, List.take_left]
    exact hagain

theorem advances_of_numberMove {setup : Setup} (h : frame.Tracks group base values cur)
    (hsuccessor : .number ∈ cur.state.successors) {c : Char} {rest : List Char}
    {found : Form} {extra pos : Nat} {next : Cursor}
    (hmove : cur.numberMove setup (c :: rest) = some (.token found extra next)) :
    cur.Advances setup.scanner group base values frame frames ⟨pos, c :: rest.take extra, found⟩
      next := by
  obtain ⟨⟨value, width⟩, hscan, hmove⟩ := Option.bind_eq_some_iff.mp hmove
  simp only [Option.ite_none_right_eq_some, Bool.and_eq_true, decide_eq_true_eq] at hmove
  obtain ⟨⟨hpos, hle⟩, htoken⟩ := hmove
  refine advances_of_token h htoken hsuccessor ?_
  obtain ⟨-, rfl, -⟩ := token_eq_some htoken
  rw [take_pred_cons c rest hpos]
  have hlength : ((c :: rest).take width).length = width := by
    rw [List.length_take, Nat.min_eq_left hle]
  refine ⟨by rw [hlength]; exact hpos, value, (c :: rest).drop width, ?_⟩
  rw [hlength, List.take_append_drop]
  exact hscan

theorem advances_of_nameMove (h : frame.Tracks group base values cur)
    (hsuccessor : .name ∈ cur.state.successors) {text lexeme : List Char} {found : Form}
    {extra pos : Nat} {next : Cursor}
    (hmove : cur.nameMove text = some (.token found extra next)) :
    cur.Advances scanner group base values frame frames ⟨pos, lexeme, found⟩ next := by
  obtain ⟨word, -, hmove⟩ := Option.bind_eq_some_iff.mp hmove
  simp only at hmove
  split at hmove
  · cases hmove
  · split at hmove
    · cases hmove
    · cases hmove
      refine advances_of_plain .name h hsuccessor trivial rfl rfl ?_
      split <;> simp

-- Commas between items, and colons between keys and values.
theorem advances_of_separator (form : Form) (h : frame.Tracks group base values cur) {pos : Nat}
    {text : List Char} (hsuccessor : form.kind ∈ cur.state.successors)
    (hform : form = .binary .collect ∨ form = .ternary .pair) {next : Cursor}
    (hzero : cur.ternaries = 0) (hternaries : next.ternaries = 0)
    (hinside : cur.separators ≠ .sequence ∧ cur.separators ≠ .terminate)
    (hheld : ∀ held, cur.separators.Tracks base held values →
      next.separators.Tracks base (held + 1) values)
    (hcallee : next.callee ≠ .binder) :
    cur.Advances scanner group base values frame frames ⟨pos, text, form⟩ next := by
  obtain ⟨frameGroup, held, ternaries⟩ := frame
  obtain ⟨rfl, hsame, hseparators, houtside⟩ := h
  obtain rfl : ternaries = 0 := hsame.trans hzero
  cases frameGroup with
  | none => exact ((houtside rfl).elim hinside.1 hinside.2).elim
  | some group =>
      refine ⟨hcallee, ⟨some group, held + 1, 0⟩, ⟨rfl, hternaries.symm, hheld held hseparators, ?_⟩,
        .separate hsuccessor hform⟩
      intro hnone
      cases hnone

theorem advances_of_comma (h : frame.Tracks group base values cur)
    (hsuccessor : .binaryOp ∈ cur.state.successors) {lexeme : List Char} {found : Form}
    {extra pos : Nat} {next : Cursor} (hmove : cur.comma = .ok (some (.token found extra next))) :
    cur.Advances scanner group base values frame frames ⟨pos, lexeme, found⟩ next := by
  simp only [comma] at hmove
  split at hmove
  · exact advances_of_token h (Except.ok.inj hmove) hsuccessor rfl
  · rename_i hzero
    have hzero : cur.ternaries = 0 := by omega
    split at hmove
    · cases hmove
    · exact advances_of_token h (Except.ok.inj hmove) hsuccessor rfl
    · rename_i count hitems
      obtain ⟨rfl, -, rfl⟩ := token_eq_some (Except.ok.inj hmove)
      refine advances_of_separator (.binary .collect) h hsuccessor (Or.inl rfl) hzero hzero (by simp [hitems]) ?_
        (by simp)
      simp only [hitems, Separators.Tracks]
      rintro held ⟨hcount, rfl⟩
      exact ⟨by omega, rfl⟩
    · cases hmove
    · rename_i count hpairs
      obtain ⟨rfl, -, rfl⟩ := token_eq_some (Except.ok.inj hmove)
      refine advances_of_separator (.binary .collect) h hsuccessor (Or.inl rfl) hzero hzero (by simp [hpairs]) ?_
        (by simp)
      simp only [hpairs, Separators.Tracks]
      rintro held ⟨hcount, rfl⟩
      exact ⟨hcount, rfl⟩

theorem advances_of_question (h : frame.Tracks group base values cur)
    (hsuccessor : .ternaryOp ∈ cur.state.successors) {lexeme : List Char} {found : Form}
    {extra pos : Nat} {next : Cursor} (hmove : cur.question = some (.token found extra next)) :
    cur.Advances scanner group base values frame frames ⟨pos, lexeme, found⟩ next := by
  obtain ⟨rfl, -, rfl⟩ := token_eq_some hmove
  obtain ⟨frameGroup, held, ternaries⟩ := frame
  refine ⟨by simp, ⟨frameGroup, held, ternaries + 1⟩, ⟨h.inGroup, ?_, h.separators, h.outside⟩,
    .question hsuccessor rfl⟩
  exact congrArg Nat.succ h.ternaries

theorem advances_of_colon {level : Level} (h : frame.Tracks group base values cur)
    (hsuccessor : .ternaryOp ∈ cur.state.successors) {lexeme : List Char} {found : Form}
    {extra pos : Nat} {next : Cursor}
    (hmove : cur.colon level = .ok (some (.token found extra next))) :
    cur.Advances scanner group base values frame frames ⟨pos, lexeme, found⟩ next := by
  simp only [colon] at hmove
  split at hmove
  · rename_i left hternaries
    obtain ⟨rfl, -, rfl⟩ := token_eq_some (Except.ok.inj hmove)
    obtain ⟨frameGroup, held, ternaries⟩ := frame
    obtain ⟨rfl, hsame, hseparators, houtside⟩ := h
    obtain rfl : ternaries = left + 1 := hsame.trans hternaries
    exact ⟨by simp, ⟨frameGroup, held, left⟩, ⟨rfl, rfl, hseparators, houtside⟩, .colon hsuccessor rfl⟩
  · cases hmove
  · rename_i count hzero hpairs
    obtain ⟨rfl, -, rfl⟩ := token_eq_some (Except.ok.inj hmove)
    refine advances_of_separator (.ternary .pair) h hsuccessor (Or.inr rfl) hzero hzero (by simp [hpairs]) ?_
      (by simp)
    simp only [hpairs, Separators.Tracks]
    rintro held ⟨hcount, rfl⟩
    exact ⟨by simp only [Bool.not_true, Bool.not_false, Bool.toNat_false, Bool.toNat_true] at *; omega,
      rfl⟩
  · split at hmove <;> cases hmove

end Cursor

section Recognise

variable {setup : Setup} {level : Level} {cur : Cursor} {text : List Char} {kind : TokenKind}

theorem recognise_token {group : Option Group} {base : Nat} {values : Nat → Nat} {frame : Frame}
    {frames : List Frame} {c : Char} {rest : List Char} {form : Form} {extra pos : Nat}
    {next : Cursor} (h : frame.Tracks group base values cur)
    (hsuccessor : kind ∈ cur.state.successors)
    (hmove : recognise setup level cur (c :: rest) kind = .ok (some (.token form extra next))) :
    cur.Advances setup.scanner group base values frame frames ⟨pos, c :: rest.take extra, form⟩
      next := by
  cases kind with
  | start => cases hmove
  | stringLiteral => exact Cursor.advances_of_stringToken h hsuccessor hmove
  | number => exact Cursor.advances_of_numberMove h hsuccessor (Except.ok.inj hmove)
  | name => exact Cursor.advances_of_nameMove h hsuccessor (Except.ok.inj hmove)
  | substArgs | subExpr | callArgs | listLiteral | dictLiteral | subscript =>
      simp only [recognise, Cursor.groupMove, Except.ok.injEq] at hmove
      split at hmove <;> cases hmove
  | finish =>
      simp only [recognise, Cursor.finishMove, Except.ok.injEq] at hmove
      split at hmove <;> cases hmove
  | substOperator | dollar | dot =>
      simp only [recognise, Except.ok.injEq, Option.ite_none_right_eq_some] at hmove
      exact Cursor.advances_of_token h hmove.2 hsuccessor trivial
  | postfixOp | prefixOp =>
      simp only [recognise, Cursor.stepMove, Except.ok.injEq] at hmove
      split at hmove
      · exact Cursor.advances_of_token h hmove hsuccessor (by simp [Token.Plain])
      · simp only [Option.ite_none_right_eq_some] at hmove
        exact Cursor.advances_of_token h hmove.2 hsuccessor (by simp [Token.Plain])
  | memberName | dollarName =>
      obtain ⟨word, -, htoken⟩ := Option.bind_eq_some_iff.mp (Except.ok.inj hmove)
      exact Cursor.advances_of_token h htoken hsuccessor trivial
  | unaryOp =>
      obtain ⟨⟨spelling, op⟩, hspelled, htoken⟩ := Option.bind_eq_some_iff.mp (Except.ok.inj hmove)
      have hunary : ∀ entry ∈ Operator.unarySpellings,
          entry.2 ∈ [Operator.negate, .unaryPlus, .bitNot, .not] := by decide
      exact Cursor.advances_of_token h htoken hsuccessor (hunary _ (mem_of_spelled? hspelled))
  | assignOp =>
      simp only [recognise, Except.ok.injEq] at hmove
      split at hmove
      · obtain ⟨⟨spelling, op⟩, -, htoken⟩ := Option.bind_eq_some_iff.mp hmove
        exact Cursor.advances_of_token h htoken hsuccessor trivial
      · cases hmove
  | binaryOp =>
      simp only [recognise, Cursor.binaryMove] at hmove
      split at hmove
      · exact Cursor.advances_of_comma h hsuccessor hmove
      · split at hmove
        · cases hmove
        · obtain ⟨⟨spelling, op⟩, hspelled, htoken⟩ :=
            Option.bind_eq_some_iff.mp (Except.ok.inj hmove)
          have harity : ∀ entry ∈ Operator.binarySpellings, entry.2.arity = 2 := by decide
          exact Cursor.advances_of_token h htoken hsuccessor (harity _ (mem_of_spelled? hspelled))
  | ternaryOp =>
      simp only [recognise, Cursor.ternaryMove] at hmove
      split at hmove
      · exact Cursor.advances_of_question h hsuccessor (Except.ok.inj hmove)
      · split at hmove
        · exact Cursor.advances_of_colon h hsuccessor hmove
        · cases hmove

end Recognise

end FormulaCode
