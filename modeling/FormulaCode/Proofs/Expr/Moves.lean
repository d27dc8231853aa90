import FormulaCode.Proofs.Expr.Syntax
import FormulaCode.Proofs.Number
import FormulaCode.Proofs.Token.Recognise

namespace FormulaCode

-- What stands behind a token of a printed tree: a space, or nothing.
def Boundary (rest : List Char) : Prop :=
  ∀ c ∈ rest.head?, c = ' '

theorem Boundary.nil : Boundary [] := by
  intro c hc
  cases hc

theorem Boundary.space (rest : List Char) : Boundary (' ' :: rest) := by
  intro c hc
  exact (Option.some.inj hc).symm

-- Where a value has to come. Behind a unary operator no other one may stand.
structure Cursor.AwaitsValue (cur : Cursor) : Prop where
  callee : cur.callee = .plain
  state : cur.state.successors = TokenKind.start.successors ∨ cur.state = .unaryOp

-- Where a value has come.
structure Cursor.AwaitsOperator (cur : Cursor) : Prop where
  callee : cur.callee = .plain
  state : cur.state ∈ [TokenKind.number, .name, .subExpr, .postfixOp, .listLiteral, .callArgs,
    .subscript]

section Values

variable {setup : Setup} {level : Level} {cur : Cursor} {text rest : List Char}

theorem Cursor.candidates_of_plain (h : cur.callee = .plain) :
    cur.candidates = cur.state.successors := by
  rw [candidates, h]

theorem Cursor.AwaitsValue.nextMove_eq (h : cur.AwaitsValue) (before : List TokenKind)
    (kind : TokenKind) (after : List TokenKind) {move : Move}
    (hsuccessors : TokenKind.start.successors = before ++ kind :: after) (hunary : kind ≠ .unaryOp)
    (hbefore : ∀ other ∈ before, recognise setup level cur text other = .ok none)
    (hkind : recognise setup level cur text kind = .ok (some move)) :
    nextMove setup level cur text = .ok move := by
  rcases h.state with hstate | hstate
  · refine FormulaCode.nextMove_eq before kind after ?_ hbefore hkind
    rw [candidates_of_plain h.callee, hstate, hsuccessors]
  · refine FormulaCode.nextMove_eq (before.filter (· ≠ .unaryOp)) kind (after.filter (· ≠ .unaryOp))
      ?_ (fun other hother => hbefore other (List.mem_filter.mp hother).1) hkind
    have hfilter : TokenKind.unaryOp.successors =
        TokenKind.start.successors.filter (· ≠ .unaryOp) := by decide
    rw [candidates_of_plain h.callee, hstate, hfilter, hsuccessors, List.filter_append,
      List.filter_cons_of_pos (by simpa using hunary)]

theorem nextMove_number (h : cur.AwaitsValue) (hscanner : setup.scanner = scanNumber)
    (digits : Digits) (hrest : Boundary rest) :
    nextMove setup level cur (digits.chars ++ rest) =
      .ok (.token .number (digits.chars.length - 1) { cur with callee := .plain }) := by
  have hscan := scanNumber_digits digits.ne_nil digits.digits hrest
  obtain ⟨c, more, hchars, hc⟩ := digits.exists_cons
  have halpha : c.isAlpha = false := isAlpha_of_isDigit hc
  have hne : ∀ d, d.isDigit = false → c ≠ d := fun d hd => ne_of_class hc hd
  have hnumber : recognise setup level cur (digits.chars ++ rest) .number =
      .ok (some (.token .number (digits.chars.length - 1) { cur with callee := .plain })) := by
    have hpos : 0 < digits.chars.length := List.length_pos_iff.mpr digits.ne_nil
    simp [recognise, Cursor.numberMove, hscanner, hscan, hpos, Cursor.token]
  refine h.nextMove_eq [.stringLiteral, .subExpr, .name, .prefixOp, .unaryOp] .number _ rfl (by decide)
    ?_ hnumber
  rw [hchars, List.cons_append]
  simp only [List.forall_mem_cons]
  refine ⟨?_, ?_, ?_, ?_, ?_, by simp⟩
  · have hquote : isQuote c = false := isQuote_of_class hc (by decide) (by decide)
    exact recognise_stringLiteral_none hquote (by simp [halpha])
  · rw [recognise, groupMove_eq_none (hne _ (by decide))]
  · exact recognise_name_none halpha
  · rw [recognise, stepMove_eq_none (hne _ (by decide)) (hne _ (by decide))]
  · exact recognise_unaryOp_none hc (by decide)

-- The word at the start of a text is the name.
theorem word?_name (word : Name) (hrest : Boundary rest) :
    word? (word.chars ++ rest) = some word.chars := by
  have hall : ∀ c ∈ word.chars, isIdentChar c = true := List.all_eq_true.mp word.ident
  have hletter : startsWithLetter (word.chars ++ rest) = true := by
    obtain ⟨c, more, hchars, hc⟩ := word.exists_cons
    rw [hchars]
    exact hc
  have hself : word.chars.takeWhile isIdentChar = word.chars := by
    have h : (word.chars ++ []).takeWhile isIdentChar = word.chars ++ [].takeWhile isIdentChar :=
      List.takeWhile_append_of_pos hall
    simpa using h
  have htake := (takeWhile_append_of_head isIdentChar word.chars rest
    (fun c hc => by rw [hrest c hc]; decide)).1
  rw [hself] at htake
  rw [word?, if_pos hletter, htake]

theorem nameMove_name (word : Name) (hrest : Boundary rest) :
    cur.nameMove (word.chars ++ rest) =
      some (.token .name (word.chars.length - 1) { cur with callee := .plain }) := by
  simp only [Cursor.nameMove, word?_name word hrest, Option.bind_eq_bind, Option.bind_some,
    word.notKeyword, word.notBinder, word.notTextual, Bool.false_eq_true, if_false]

theorem nextMove_name (h : cur.AwaitsValue) (word : Name) (hrest : Boundary rest) :
    nextMove setup level cur (word.chars ++ rest) =
      .ok (.token .name (word.chars.length - 1) { cur with callee := .plain }) := by
  have hname : recognise setup level cur (word.chars ++ rest) .name =
      .ok (some (.token .name (word.chars.length - 1) { cur with callee := .plain })) := by
    rw [recognise, nameMove_name word hrest]
  refine h.nextMove_eq [.stringLiteral, .subExpr] .name _ rfl (by decide) ?_ hname
  have hident : ∀ c ∈ word.chars, isIdentChar c = true := List.all_eq_true.mp word.ident
  obtain ⟨c, more, hchars, hc⟩ := word.exists_cons
  have hquote : isQuote c = false := isQuote_of_class hc (by decide) (by decide)
  rw [hchars, List.cons_append]
  simp only [List.forall_mem_cons]
  refine ⟨?_, ?_, by simp⟩
  · refine recognise_stringLiteral_none hquote fun _ d hd => ?_
    -- A single letter is followed by a space, and a longer word goes on.
    cases more with
    | nil =>
        rw [hrest d hd]
        decide
    | cons e more =>
        obtain rfl : e = d := Option.some.inj hd
        have he : isIdentChar e = true := hident e (by rw [hchars]; simp)
        exact isQuote_of_class he (by decide) (by decide)
  · rw [recognise, groupMove_eq_none (ne_of_class hc (by decide))]

-- A step in front wants a name.
theorem nextMove_steppedName (hcallee : cur.callee = .plain) (hstate : cur.state = .prefixOp)
    (word : Name) (hrest : Boundary rest) :
    nextMove setup level cur (word.chars ++ rest) =
      .ok (.token .name (word.chars.length - 1) { cur with callee := .plain }) := by
  refine nextMove_eq [] .name [] ?_ (by simp) ?_
  · rw [Cursor.candidates_of_plain hcallee, hstate]
    rfl
  · rw [recognise, nameMove_name word hrest]

theorem nextMove_paren (h : cur.AwaitsValue) :
    nextMove setup level cur ('(' :: rest) = .ok (.group .subExpr) := by
  refine h.nextMove_eq [.stringLiteral] .subExpr _ rfl (by decide) ?_ rfl
  simp only [List.forall_mem_cons]
  exact ⟨recognise_stringLiteral_none (by decide) (fun h => absurd h (by decide)), by simp⟩

theorem nextMove_list (h : cur.AwaitsValue) (hscanner : setup.scanner = scanNumber) :
    nextMove setup level cur ('[' :: rest) = .ok (.group .list) := by
  refine h.nextMove_eq [.stringLiteral, .subExpr, .name, .prefixOp, .unaryOp, .number] .listLiteral _
    rfl (by decide) ?_ rfl
  simp only [List.forall_mem_cons]
  refine ⟨recognise_stringLiteral_none (by decide) (fun h => absurd h (by decide)), rfl, rfl, rfl, rfl, ?_, by simp⟩
  have hnone : scanNumber ('[' :: rest) = none := scanNumber_eq_none (by decide) (by decide)
  simp [recognise, Cursor.numberMove, hscanner, hnone]

theorem nextMove_stepBefore (h : cur.AwaitsValue) (step : Step) :
    nextMove setup level cur (step.spelling ++ rest) =
      .ok (.token (.stepBefore step.before) 1 { cur with callee := .plain }) := by
  cases step with
  | increment | decrement =>
      refine h.nextMove_eq [.stringLiteral, .subExpr, .name] .prefixOp _ rfl (by decide) ?_ rfl
      simp only [List.forall_mem_cons]
      exact ⟨rfl, rfl, rfl, by simp⟩

theorem spelled?_unary {entry : List Char × Operator} (hentry : entry ∈ Operator.unarySpellings) :
    spelled? Operator.unarySpellings (entry.1 ++ ' ' :: rest) = some entry := by
  revert entry
  simp only [Operator.unarySpellings, List.forall_mem_cons, List.not_mem_nil, false_imp_iff,
    implies_true, and_true]
  and_intros <;> rfl

theorem nextMove_unary (hcallee : cur.callee = .plain)
    (hstate : cur.state.successors = TokenKind.start.successors)
    (op : Spelled Operator.unarySpellings) :
    nextMove setup level cur (op.spelling ++ ' ' :: rest) =
      .ok (.token (.unary op.meaning) (op.spelling.length - 1) { cur with callee := .plain }) := by
  have hbefore : ∀ entry ∈ Operator.unarySpellings,
      ∀ other ∈ [TokenKind.stringLiteral, .subExpr, .name, .prefixOp],
        recognise setup level cur (entry.1 ++ ' ' :: rest) other = .ok none := by
    simp only [Operator.unarySpellings, List.forall_mem_cons, List.not_mem_nil, false_imp_iff,
      implies_true, and_true]
    and_intros <;> rfl
  refine nextMove_eq [.stringLiteral, .subExpr, .name, .prefixOp] .unaryOp
    [.number, .listLiteral, .dictLiteral, .dollar] ?_ (hbefore _ op.mem) ?_
  · rw [Cursor.candidates_of_plain hcallee, hstate]
    rfl
  · have hspelled : spelled? Operator.unarySpellings (op.spelling ++ ' ' :: rest) =
        some (op.spelling, op.meaning) := spelled?_unary op.mem
    rw [recognise, hspelled]
    rfl

end Values

section Operators

variable {setup : Setup} {level : Level} {cur : Cursor} {rest : List Char}

-- Only a name may be followed by something that is looked for before the operators.
theorem Cursor.AwaitsOperator.candidates_eq (h : cur.AwaitsOperator) :
    ∃ before after, cur.candidates = before ++ .binaryOp :: .ternaryOp :: after ∧
      ∀ other ∈ before, other = .postfixOp := by
  have hstates : ∀ kind ∈ [TokenKind.number, .name, .subExpr, .postfixOp, .listLiteral, .callArgs,
      .subscript], ∃ before after, kind.successors = before ++ .binaryOp :: .ternaryOp :: after ∧
        ∀ other ∈ before, other = .postfixOp := by
    simp only [List.forall_mem_cons, List.not_mem_nil, false_imp_iff, implies_true, and_true]
    refine ⟨⟨[], _, rfl, ?_⟩, ⟨[.postfixOp], _, rfl, ?_⟩, ⟨[], _, rfl, ?_⟩, ⟨[], _, rfl, ?_⟩,
      ⟨[], _, rfl, ?_⟩, ⟨[], _, rfl, ?_⟩, ⟨[], _, rfl, ?_⟩⟩ <;> decide
  rw [candidates_of_plain h.callee]
  exact hstates cur.state h.state

theorem Cursor.AwaitsOperator.finish_mem (h : cur.AwaitsOperator) : .finish ∈ cur.candidates := by
  have hstates : ∀ kind ∈ [TokenKind.number, .name, .subExpr, .postfixOp, .listLiteral, .callArgs,
      .subscript], .finish ∈ kind.successors := by decide
  rw [candidates_of_plain h.callee]
  exact hstates cur.state h.state

-- What the operators of a tree are taken for where a value has come.
theorem Cursor.AwaitsOperator.nextMove_binary {text : List Char} {move : Move}
    (h : cur.AwaitsOperator) (hstep : recognise setup level cur text .postfixOp = .ok none)
    (hmove : cur.binaryMove setup text = .ok (some move)) :
    nextMove setup level cur text = .ok move := by
  obtain ⟨before, after, hcandidates, hbefore⟩ := h.candidates_eq
  refine nextMove_eq before .binaryOp (.ternaryOp :: after) hcandidates ?_ hmove
  intro other hother
  rw [hbefore other hother]
  exact hstep

theorem Cursor.AwaitsOperator.nextMove_ternary {text : List Char} {move : Move}
    (h : cur.AwaitsOperator) (hstep : recognise setup level cur text .postfixOp = .ok none)
    (hbinary : cur.binaryMove setup text = .ok none)
    (hmove : cur.ternaryMove level text = .ok (some move)) :
    nextMove setup level cur text = .ok move := by
  obtain ⟨before, after, hcandidates, hbefore⟩ := h.candidates_eq
  refine nextMove_eq (before ++ [.binaryOp]) .ternaryOp after ?_ ?_ hmove
  · rw [hcandidates, List.append_assoc]
    rfl
  · intro other hother
    rcases List.mem_append.mp hother with hother | hother
    · rw [hbefore other hother]
      exact hstep
    · obtain rfl : other = .binaryOp := List.mem_singleton.mp hother
      exact hbinary

theorem nextMove_binaryOp (h : cur.AwaitsOperator) (op : Spelled Operator.binarySpellings) :
    nextMove setup level cur (op.spelling ++ ' ' :: rest) =
      .ok (.token (.binary op.meaning) (op.spelling.length - 1) { cur with callee := .plain }) := by
  have hstep : ∀ entry ∈ Operator.binarySpellings,
      recognise setup level cur (entry.1 ++ ' ' :: rest) .postfixOp = .ok none := by
    simp only [Operator.binarySpellings, List.forall_mem_cons, List.not_mem_nil, false_imp_iff,
      implies_true, and_true]
    and_intros <;> rfl
  have hcomma : ∀ entry ∈ Operator.binarySpellings,
      (entry.1 ++ ' ' :: rest).head? ≠ some ',' := by simp [Operator.binarySpellings]
  have hspelled : ∀ entry ∈ Operator.binarySpellings,
      assignment? (entry.1 ++ ' ' :: rest) = none ∧
        spelled? Operator.binarySpellings (entry.1 ++ ' ' :: rest) = some entry := by
    simp only [Operator.binarySpellings, List.forall_mem_cons, List.not_mem_nil, false_imp_iff,
      implies_true, and_true]
    and_intros <;> rfl
  obtain ⟨hassignment, hentry⟩ := hspelled _ op.mem
  refine h.nextMove_binary (hstep _ op.mem) ?_
  rw [Cursor.binaryMove, if_neg (hcomma _ op.mem), hassignment, hentry]
  simp [Cursor.token]

theorem nextMove_question (h : cur.AwaitsOperator) :
    nextMove setup level cur ('?' :: rest) =
      .ok (.token (.ternary .question) 0
        { cur with ternaries := cur.ternaries + 1, callee := .plain }) :=
  h.nextMove_ternary rfl (binaryMove_eq_none (by decide) rfl) rfl

theorem nextMove_colon (h : cur.AwaitsOperator) {ternaries : Nat}
    (hternaries : cur.ternaries = ternaries + 1) :
    nextMove setup level cur (':' :: rest) =
      .ok (.token (.ternary .colon) 0 { cur with ternaries, callee := .plain }) := by
  refine h.nextMove_ternary rfl (binaryMove_eq_none (by decide) rfl) ?_
  simp [Cursor.ternaryMove, Cursor.colon, hternaries, Cursor.token]

theorem nextMove_sequence (h : cur.AwaitsOperator)
    (hcomma : 0 < cur.ternaries ∨ cur.separators = .sequence) :
    nextMove setup level cur (',' :: rest) =
      .ok (.token (.binary .sequence) 0 { cur with callee := .plain }) := by
  refine h.nextMove_binary rfl ?_
  by_cases hternaries : 0 < cur.ternaries
  · simp [Cursor.binaryMove, Cursor.comma, hternaries, Cursor.token]
  · have hseparators : cur.separators = .sequence := hcomma.resolve_left hternaries
    simp [Cursor.binaryMove, Cursor.comma, hternaries, hseparators, Cursor.token]

theorem nextMove_collect (h : cur.AwaitsOperator) (hternaries : cur.ternaries = 0) {count : Nat}
    (hseparators : cur.separators = .items count) :
    nextMove setup level cur (',' :: rest) =
      .ok (.token (.binary .collect) 0
        { cur with separators := .items (count + 1), callee := .plain }) := by
  refine h.nextMove_binary rfl ?_
  simp [Cursor.binaryMove, Cursor.comma, hternaries, hseparators, Cursor.token]

-- What may follow a name only.
section AfterName

variable (hcallee : cur.callee = .plain) (hstate : cur.state = .name)

include hcallee hstate

theorem candidates_of_name : cur.candidates = TokenKind.name.successors := by
  rw [Cursor.candidates_of_plain hcallee, hstate]

theorem nextMove_stepAfter (step : Step) :
    nextMove setup level cur (step.spelling ++ rest) =
      .ok (.token (.stepAfter step.after) 1 { cur with callee := .plain }) := by
  refine nextMove_eq [] .postfixOp _ (candidates_of_name hcallee hstate) (by simp) ?_
  cases step <;> rfl

theorem nextMove_call : nextMove setup level cur ('(' :: rest) = .ok (.group .call) := by
  refine nextMove_eq [.postfixOp, .binaryOp, .ternaryOp] .callArgs _
    (candidates_of_name hcallee hstate) ?_ rfl
  simp only [List.forall_mem_cons]
  exact ⟨rfl, binaryMove_eq_none (by decide) rfl, rfl, by simp⟩

theorem nextMove_subscript : nextMove setup level cur ('[' :: rest) = .ok (.group .subscript) := by
  refine nextMove_eq [.postfixOp, .binaryOp, .ternaryOp, .callArgs] .subscript _
    (candidates_of_name hcallee hstate) ?_ rfl
  simp only [List.forall_mem_cons]
  exact ⟨rfl, binaryMove_eq_none (by decide) rfl, rfl, rfl, by simp⟩

end AfterName

theorem assignment?_spelled {entry : List Char × Assignment} (hentry : entry ∈ Assignment.spellings) :
    assignment? (entry.1 ++ ' ' :: rest) = some entry := by
  revert entry
  simp only [Assignment.spellings, List.forall_mem_cons, List.not_mem_nil, false_imp_iff,
    implies_true, and_true]
  and_intros <;> rfl

theorem nextMove_assign (hcallee : cur.callee = .plain)
    (hstate : cur.state = .name ∨ cur.state = .subscript)
    (hassignment : setup.permissions.assignment = true) (op : Spelled Assignment.spellings) :
    nextMove setup level cur (op.spelling ++ ' ' :: rest) =
      .ok (.token (.assign op.meaning) (op.spelling.length - 1) { cur with callee := .plain }) := by
  have hspelled : assignment? (op.spelling ++ ' ' :: rest) = some (op.spelling, op.meaning) :=
    assignment?_spelled op.mem
  have hassign : recognise setup level cur (op.spelling ++ ' ' :: rest) .assignOp =
      .ok (some (.token (.assign op.meaning) (op.spelling.length - 1)
        { cur with callee := .plain })) := by
    simp [recognise, hassignment, hspelled, Cursor.token]
  have hothers : ∀ entry ∈ Assignment.spellings,
      ∀ other ∈ [TokenKind.postfixOp, .ternaryOp, .callArgs, .subscript, .dot],
        recognise setup level cur (entry.1 ++ ' ' :: rest) other = .ok none := by
    simp only [Assignment.spellings, List.forall_mem_cons, List.not_mem_nil, false_imp_iff,
      implies_true, and_true]
    and_intros <;> rfl
  have hcomma : ∀ entry ∈ Assignment.spellings, (entry.1 ++ ' ' :: rest).head? ≠ some ',' := by
    simp [Assignment.spellings]
  have hbinary : cur.state.successors.contains .assignOp = true →
      recognise setup level cur (op.spelling ++ ' ' :: rest) .binaryOp = .ok none := by
    intro hsuccessor
    rw [recognise, Cursor.binaryMove, if_neg (hcomma _ op.mem),
      if_pos (by rw [hassignment, hsuccessor, hspelled]; rfl)]
  have hbefore : ∀ other ∈ [TokenKind.postfixOp, .binaryOp, .ternaryOp, .callArgs, .subscript, .dot],
      cur.state.successors.contains .assignOp = true →
        recognise setup level cur (op.spelling ++ ' ' :: rest) other = .ok none := by
    intro other hother hsuccessor
    by_cases hop : other = .binaryOp
    · rw [hop]
      exact hbinary hsuccessor
    · exact hothers _ op.mem other (by revert hop hother; cases other <;> decide)
  rcases hstate with hstate | hstate
  · refine nextMove_eq [.postfixOp, .binaryOp, .ternaryOp, .callArgs, .subscript, .dot] .assignOp
      [.finish] ?_ (fun other hother => hbefore other hother (by rw [hstate]; rfl)) hassign
    rw [Cursor.candidates_of_plain hcallee, hstate]
    rfl
  · refine nextMove_eq [.binaryOp, .ternaryOp, .callArgs, .subscript] .assignOp [.finish] ?_
      (fun other hother => hbefore other (by revert hother; cases other <;> decide)
        (by rw [hstate]; rfl)) hassign
    rw [Cursor.candidates_of_plain hcallee, hstate]
    rfl

end Operators

end FormulaCode
