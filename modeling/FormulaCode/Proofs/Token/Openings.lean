import FormulaCode.Proofs.Token.Walk

namespace FormulaCode

theorem lastCallee_append (callee : Callee) (tokens more : List Token) :
    lastCallee callee (tokens ++ more) = lastCallee (lastCallee callee tokens) more := by
  induction tokens generalizing callee with
  | nil => rfl
  | cons token tokens ih => exact ih token.callee

-- A token of two lists in a row is in the first or in the second.
theorem append_eq_append_cons {first second tokens more : List Token} {token : Token}
    (h : first ++ second = tokens ++ token :: more) :
    (∃ later, first = tokens ++ token :: later) ∨
      ∃ late, tokens = first ++ late ∧ second = late ++ token :: more := by
  rcases List.append_eq_append_iff.mp h with hlate | ⟨early, hfirst, hmore⟩
  · exact Or.inr hlate
  · cases early with
    | nil => exact Or.inr ⟨[], by rw [hfirst, List.append_nil, List.append_nil], hmore.symm⟩
    | cons found later =>
        obtain ⟨rfl, -⟩ := List.cons.inj hmore
        exact Or.inl ⟨later, hfirst⟩

namespace Scan

variable {α β γ : Type}

-- A run goes through another one behind some tokens, and fails if that one does.
def Through (run : Scan α) (tokens : List Token) (part : Scan β) : Prop :=
  ∃ next : β → Scan α, run = (part >>= next).after tokens

theorem through_self (run : Scan α) : run.Through [] run := by
  refine ⟨pure, ?_⟩
  cases hout : run.outcome with
  | error e => rw [bind_of_error hout, after, List.nil_append, ← hout]
  | ok a =>
      rw [bind_of_ok hout, after_after, List.nil_append]
      change run = ⟨run.tokens ++ [], .ok a⟩
      rw [List.append_nil, ← hout]

namespace Through

variable {run : Scan α} {part : Scan β} {tokens : List Token}

theorem after (h : run.Through tokens part) (more : List Token) :
    (run.after more).Through (more ++ tokens) part := by
  obtain ⟨next, rfl⟩ := h
  exact ⟨next, after_after more tokens _⟩

theorem bind (h : run.Through tokens part) (next : α → Scan γ) :
    (run >>= next).Through tokens part := by
  obtain ⟨first, rfl⟩ := h
  refine ⟨fun b => first b >>= next, ?_⟩
  rw [after_bind]
  cases hout : part.outcome with
  | error e => rw [bind_of_error hout, bind_of_error hout, bind_of_error rfl]
  | ok b => rw [bind_of_ok hout, bind_of_ok hout, after_bind]

theorem behind {first : Scan γ} {next : γ → Scan α} {a : γ} (ha : first.outcome = .ok a)
    (h : (next a).Through tokens part) :
    (first >>= next).Through (first.tokens ++ tokens) part := by
  rw [bind_of_ok ha]
  exact h.after first.tokens

-- A failure of the part ends the run.
theorem of_error (h : run.Through tokens part) {e : LexError} (he : part.outcome = .error e) :
    run = ⟨tokens ++ part.tokens, .error e⟩ := by
  obtain ⟨next, rfl⟩ := h
  rw [bind_of_error he]
  rfl

theorem exists_tokens (h : run.Through tokens part) :
    ∃ more, run.tokens = tokens ++ (part.tokens ++ more) := by
  cases hout : part.outcome with
  | error e =>
      refine ⟨[], ?_⟩
      rw [h.of_error hout, List.append_nil]
  | ok b =>
      obtain ⟨next, rfl⟩ := h
      rw [bind_of_ok hout]
      exact ⟨(next b).tokens, rfl⟩

end Through

-- A run comes to a group behind some tokens. The group stands in the text of the run, and the last
-- of the tokens says what it is behind.
inductive Visits (setup : Setup) (run : Scan α) (callee : Callee) (pos : Nat) (text : List Char)
    (tokens : List Token) (start : Nat) (group : Group) : Prop
  | intro {level : Level} {cur : Cursor} {inside rest : List Char} (before after : List Char)
      (text_eq : text = before ++ (group.opener :: (inside ++ group.closer :: rest) ++ after))
      (start_eq : start = pos + byteLength before) (pos_eq : cur.pos = start)
      (callee_eq : cur.callee = lastCallee callee tokens)
      (matched : matching? (· = group.opener) (· = group.closer)
        (group.opener :: (inside ++ group.closer :: rest)) = some (group.opener :: inside))
      (through : run.Through tokens (scanGroup setup level cur group inside rest))

namespace Visits

variable {setup : Setup} {run : Scan α} {callee : Callee} {pos start : Nat} {text : List Char}
  {tokens : List Token} {group : Group}

theorem embed {place : Nat} {before : List Char}
    (h : run.Visits setup callee place text tokens start group)
    (hplace : place = pos + byteLength before) (after : List Char) :
    run.Visits setup callee pos (before ++ (text ++ after)) tokens start group := by
  subst hplace
  obtain ⟨first, last, rfl, hstart, hpos, hcallee, hmatched, hthrough⟩ := h
  refine ⟨before ++ first, last ++ after, by simp, ?_, hpos, hcallee, hmatched, hthrough⟩
  rw [hstart, byteLength_append, Nat.add_assoc]

theorem bind (h : run.Visits setup callee pos text tokens start group) (next : α → Scan β) :
    (run >>= next).Visits setup callee pos text tokens start group := by
  obtain ⟨before, after, htext, hstart, hpos, hcallee, hmatched, hthrough⟩ := h
  exact ⟨before, after, htext, hstart, hpos, hcallee, hmatched, hthrough.bind next⟩

theorem behind {first : Scan β} {next : β → Scan α} {b : β} (hb : first.outcome = .ok b)
    (h : (next b).Visits setup (lastCallee callee first.tokens) pos text tokens start group) :
    (first >>= next).Visits setup callee pos text (first.tokens ++ tokens) start group := by
  obtain ⟨before, after, htext, hstart, hpos, hcallee, hmatched, hthrough⟩ := h
  refine ⟨before, after, htext, hstart, hpos, ?_, hmatched, hthrough.behind hb⟩
  rw [hcallee, lastCallee_append]

end Visits

-- Whenever a run records an opening bracket, it comes to the group there.
def Opens (setup : Setup) (run : Scan α) (callee : Callee) (pos : Nat) (text : List Char) : Prop :=
  ∀ tokens opening more group, run.tokens = tokens ++ opening :: more →
    opening.form = .opening group → run.Visits setup callee pos text tokens opening.start group

variable {setup : Setup} {callee : Callee} {run : Scan α} {pos : Nat} {text : List Char}

theorem opens_of_forall (h : ∀ token ∈ run.tokens, ∀ group, token.form ≠ .opening group) :
    run.Opens setup callee pos text := by
  intro tokens opening more group htokens hform
  exact absurd hform (h opening (by simp [htokens]) group)

-- A bracket comes from the first part, or from what follows behind all that the first part has
-- read.
theorem Opens.bind {next : α → Scan β} (h : run.Opens setup callee pos text)
    (hnext : ∀ a, run.outcome = .ok a → ∃ read rest, text = read ++ rest ∧
      (next a).Opens setup (lastCallee callee run.tokens) (pos + byteLength read) rest) :
    (run >>= next).Opens setup callee pos text := by
  intro tokens opening more group htokens hform
  cases hout : run.outcome with
  | error e =>
      rw [bind_of_error hout] at htokens
      exact (h tokens opening more group htokens hform).bind next
  | ok a =>
      rw [bind_of_ok hout] at htokens
      rcases append_eq_append_cons htokens with ⟨later, hlater⟩ | ⟨late, rfl, hlate⟩
      · exact (h tokens opening later group hlater hform).bind next
      · obtain ⟨read, rest, rfl, hopens⟩ := hnext a hout
        have hvisits := (hopens late opening more group hlate hform).embed rfl []
        rw [List.append_nil] at hvisits
        exact hvisits.behind hout

-- The first bracket of a group is where the group is read.
theorem opens_group {level : Level} {cur : Cursor} {group : Group} {inside rest : List Char}
    (hmatch : matching? (· = group.opener) (· = group.closer)
      (group.opener :: (inside ++ group.closer :: rest)) = some (group.opener :: inside))
    (hbehind : (scanBehind setup level cur group inside rest).Opens setup .plain (cur.pos + 1)
      (inside ++ group.closer :: rest)) :
    (scanGroup setup level cur group inside rest).Opens setup cur.callee cur.pos
      (group.opener :: (inside ++ group.closer :: rest)) := by
  have hopen : cur.pos + 1 = cur.pos + byteLength [group.opener] := by
    rw [group.byteLength_opener]
    rfl
  intro tokens opening more found htokens hform
  cases tokens with
  | nil =>
      obtain ⟨rfl, -⟩ := List.cons.inj htokens
      obtain rfl := Form.opening.inj hform
      refine ⟨[], [], ?_, rfl, rfl, rfl, hmatch, through_self _⟩
      rw [List.nil_append, List.append_nil]
  | cons first tokens =>
      obtain ⟨rfl, htail⟩ := List.cons.inj htokens
      have hvisits := (hbehind tokens opening more found htail hform).embed hopen []
      rw [List.append_nil, List.singleton_append] at hvisits
      have hemit : (Scan.emit cur.pos [group.opener] (.opening group)).outcome = .ok () := rfl
      exact .behind hemit hvisits

end Scan

-- Every opening bracket that a run records is where a group of its text is read.
theorem opens_rules (setup : Setup) :
    WalkRules setup fun run callee pos text => run.Opens setup callee pos text where
  quiet h := Scan.opens_of_forall h.2
  fail _ := Scan.opens_of_forall (List.forall_mem_nil _)
  widen after h _ := fun tokens opening more group htokens hform =>
    (h tokens opening more group htokens hform).embed rfl after
  map {α β run callee pos text} f h := by
    refine h.bind fun a _ => ⟨[], text, rfl, ?_⟩
    exact Scan.opens_of_forall (List.forall_mem_nil _)
  bind h hnext := by
    refine h.bind fun a ha => ?_
    obtain ⟨read, rest, htext, -, hopens⟩ := hnext a ha
    exact ⟨read, rest, htext, hopens⟩
  group := Scan.opens_group

end FormulaCode
