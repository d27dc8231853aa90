import FormulaCode.Proofs.Token.Grammar

namespace FormulaCode

-- How many groups are open behind a token, if `depth` are open in front of it. No group closes that
-- none opened.
def Form.nest (depth : Nat) : Form → Option Nat
  | opening _ => some (depth + 1)
  | closing _ => if depth = 0 then none else some (depth - 1)
  | _ => some depth

def openGroups (depth : Nat) (tokens : List Token) : Option Nat :=
  tokens.foldlM (fun depth token => token.form.nest depth) depth

-- Two brackets belong together if all groups that open between them close there.
structure IsGroup (group : Group) (opening : Token) (inner : List Token) (closing : Token) : Prop where
  opens : opening.form = .opening group
  closes : ∃ found, closing.form = .closing found
  balanced : openGroups 0 inner = some 0

theorem Form.IsPlain.nest {form : Form} (h : form.IsPlain) (depth : Nat) :
    form.nest depth = some depth := by
  cases form with
  | opening | closing => exact h.elim
  | _ => rfl

section Counting

variable {depth last : Nat} {tokens more : List Token} {token : Token}

theorem openGroups_append (depth : Nat) (tokens more : List Token) :
    openGroups depth (tokens ++ more) =
      (openGroups depth tokens).bind fun middle => openGroups middle more :=
  List.foldlM_append

theorem openGroups_cons (depth : Nat) (token : Token) (tokens : List Token) :
    openGroups depth (token :: tokens) =
      (token.form.nest depth).bind fun middle => openGroups middle tokens :=
  List.foldlM_cons

-- What closes inside one group closes inside more of them.
theorem openGroups_add (h : openGroups depth tokens = some last) (outer : Nat) :
    openGroups (depth + outer) tokens = some (last + outer) := by
  induction tokens generalizing depth with
  | nil =>
      cases h
      rfl
  | cons token tokens ih =>
      rw [openGroups_cons] at h ⊢
      obtain ⟨middle, hmiddle, hrest⟩ := Option.bind_eq_some_iff.mp h
      have hnest : token.form.nest (depth + outer) = some (middle + outer) := by
        cases hform : token.form with
        | opening group =>
            rw [hform] at hmiddle
            cases hmiddle
            exact congrArg some (Nat.add_right_comm depth outer 1)
        | closing found =>
            rw [hform] at hmiddle
            simp only [Form.nest, Option.ite_none_left_eq_some, Option.some.injEq] at hmiddle ⊢
            omega
        | _ =>
            rw [hform] at hmiddle
            cases hmiddle
            rfl
      rw [hnest, Option.bind_some]
      exact ih hrest

-- Behind balanced tokens there is no group to close.
theorem openGroups_of_closing {found : Closing} (h : openGroups 0 tokens = some 0)
    (hclosing : token.form = .closing found) (rest : List Token) :
    openGroups 0 (tokens ++ token :: rest) = none := by
  rw [openGroups_append, h, Option.bind_some, openGroups_cons, hclosing]
  rfl

-- A group that opens among balanced tokens closes among them.
theorem openGroups_of_opening {group : Group} (h : openGroups 0 (more ++ token :: tokens) = some 0)
    (hopening : token.form = .opening group) : openGroups 0 tokens = none := by
  cases hrest : openGroups 0 tokens with
  | none => rfl
  | some last =>
      rw [openGroups_append] at h
      obtain ⟨depth, -, h⟩ := Option.bind_eq_some_iff.mp h
      have hdeep := openGroups_add hrest (depth + 1)
      rw [Nat.zero_add] at hdeep
      rw [openGroups_cons, hopening, Form.nest, Option.bind_some, hdeep, Option.some.injEq] at h
      omega

end Counting

-- A bracket has one that it belongs to and no other.
theorem IsGroup.unique {group : Group} {opening closing last : Token} {inner between : List Token}
    {rest more : List Token} {found : Closing} (h : IsGroup group opening inner closing)
    (hbetween : openGroups 0 between = some 0) (hlast : last.form = .closing found)
    (htokens : inner ++ closing :: rest = between ++ last :: more) :
    inner = between ∧ closing = last := by
  obtain ⟨other, hother⟩ := h.closes
  rcases List.append_eq_append_iff.mp htokens with ⟨extra, hextra, hbehind⟩ | ⟨extra, hextra, hbehind⟩
  · cases extra with
    | nil =>
        obtain ⟨rfl, -⟩ := List.cons.inj hbehind
        exact ⟨by simpa using hextra.symm, rfl⟩
    | cons token extra =>
        obtain ⟨rfl, -⟩ := List.cons.inj hbehind
        rw [hextra, openGroups_of_closing h.balanced hother] at hbetween
        cases hbetween
  · cases extra with
    | nil =>
        obtain ⟨rfl, -⟩ := List.cons.inj hbehind
        exact ⟨by simpa using hextra, rfl⟩
    | cons token extra =>
        obtain ⟨rfl, -⟩ := List.cons.inj hbehind
        have hinner := h.balanced
        rw [hextra, openGroups_of_closing hbetween hlast] at hinner
        cases hinner

-- A group does not begin with a token that is no bracket.
theorem IsGroup.infix_of_cons {group : Group} {opening closing token : Token}
    {inner tokens : List Token} (h : IsGroup group opening inner closing)
    (hnest : ∀ depth, token.form.nest depth = some depth)
    (hwithin : opening :: (inner ++ [closing]) <:+: token :: tokens) :
    opening :: (inner ++ [closing]) <:+: tokens := by
  rcases List.infix_cons_iff.mp hwithin with ⟨rest, hrest⟩ | hlater
  · obtain ⟨rfl, -⟩ := List.cons.inj hrest
    have hopens := hnest 0
    rw [h.opens] at hopens
    cases hopens
  · exact hlater

-- No group reaches beyond a bracket that closes one around it.
theorem IsGroup.not_across {group : Group} {opening closing last : Token}
    {inner before start rest : List Token} (h : IsGroup group opening inner closing)
    (hbetween : openGroups 0 (before ++ opening :: start) = some 0)
    (hinner : inner ++ [closing] = start ++ last :: rest) : False := by
  have hshort : start.length ≤ inner.length := by
    have hlength := congrArg List.length hinner
    simp only [List.length_append, List.length_cons, List.length_nil] at hlength
    omega
  obtain ⟨tail, rfl⟩ : start <+: inner :=
    List.prefix_of_prefix_length_le ⟨last :: rest, hinner.symm⟩ (List.prefix_append _ _) hshort
  have hbalanced := h.balanced
  rw [openGroups_append, openGroups_of_opening hbetween h.opens] at hbalanced
  cases hbalanced

-- A group among the tokens around a closing bracket lies on one side of it.
theorem IsGroup.infix_of_append {group : Group} {opening closing last : Token}
    {inner between more : List Token} {found : Closing} (h : IsGroup group opening inner closing)
    (hbetween : openGroups 0 between = some 0) (hlast : last.form = .closing found)
    (hwithin : opening :: (inner ++ [closing]) <:+: between ++ last :: more) :
    opening :: (inner ++ [closing]) <:+: between ∨ opening :: (inner ++ [closing]) <:+: more := by
  have hne : opening ≠ last := by
    rintro rfl
    rw [h.opens] at hlast
    cases hlast
  obtain ⟨first, rest, htokens⟩ := hwithin
  rw [List.append_assoc] at htokens
  rcases List.append_eq_append_iff.mp htokens with ⟨start, rfl, hstart⟩ | ⟨start, -, hstart⟩
  · -- The group begins in front of the bracket, and its end is there too.
    rcases List.append_eq_append_iff.mp hstart with ⟨tail, rfl, -⟩ | ⟨tail, hgroup, htail⟩
    · exact Or.inl ⟨first, tail, by simp⟩
    · cases tail with
      | nil =>
          rw [List.append_nil] at hgroup
          exact Or.inl ⟨first, [], by rw [hgroup, List.append_nil]⟩
      | cons token tail =>
          obtain ⟨rfl, -⟩ := List.cons.inj htail
          cases start with
          | nil => exact absurd (List.cons.inj hgroup).1 hne
          | cons token start =>
              obtain ⟨rfl, hinner⟩ := List.cons.inj hgroup
              exact (h.not_across hbetween hinner).elim
  · cases start with
    | nil => exact absurd (List.cons.inj hstart).1.symm hne
    | cons token start =>
        rw [List.cons_append] at hstart
        obtain ⟨-, hmore⟩ := List.cons.inj hstart
        exact Or.inr ⟨start, rest, by rw [hmore, List.append_assoc]⟩

end FormulaCode
