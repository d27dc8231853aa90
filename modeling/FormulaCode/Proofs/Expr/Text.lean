import FormulaCode.Proofs.Bracket
import FormulaCode.Proofs.Expr.Moves

namespace FormulaCode

-- A printed character that is no space.
structure Visible (c : Char) : Prop where
  low : 0x21 ≤ c.toNat
  high : c.toNat ≤ 0x7E

namespace Visible

theorem isSkipped_eq {c : Char} (h : Visible c) : isSkipped c = false := by
  have hlow := h.low
  have hspace : ¬c.toNat ≤ ' '.toNat := by
    have : ' '.toNat = 0x20 := rfl
    omega
  simp only [isSkipped, decide_eq_false_iff_not]
  exact hspace

theorem isBlank_eq {c : Char} (h : Visible c) : isBlank c = false := by
  have hlow := h.low
  have hhigh := h.high
  simp [isBlank]
  omega

theorem of_isAlpha {c : Char} (h : c.isAlpha = true) : Visible c := by
  have hletter := toNat_of_isAlpha h
  exact ⟨by omega, by omega⟩

theorem of_isDigit {c : Char} (h : c.isDigit = true) : Visible c := by
  have hdigit := toNat_of_isDigit h
  exact ⟨by omega, by omega⟩

instance (c : Char) : Decidable (Visible c) :=
  decidable_of_iff (0x21 ≤ c.toNat ∧ c.toNat ≤ 0x7E) ⟨fun h => ⟨h.1, h.2⟩, fun h => ⟨h.low, h.high⟩⟩

end Visible

-- Round or square brackets, which a printed tree holds in pairs.
def IsBracket (opener closer : Char) : Prop :=
  (opener = '(' ∧ closer = ')') ∨ (opener = '[' ∧ closer = ']')

namespace Passes

variable {opener closer : Char}

theorem of_quiet (h : IsBracket opener closer) {text : List Char}
    (htext : text.all isQuiet = true) : Passes opener closer text := by
  refine chars fun c hc => ?_
  have hquiet := List.all_eq_true.mp htext c hc
  simp only [isQuiet, Bool.and_eq_true, Bool.not_eq_true', List.contains_eq_mem,
    decide_eq_false_iff_not, List.mem_cons, List.not_mem_nil, or_false, not_or] at hquiet
  obtain ⟨hquote, hround, hround', hsquare, hsquare'⟩ := hquiet
  rcases h with ⟨rfl, rfl⟩ | ⟨rfl, rfl⟩
  · exact ⟨hquote, hround, hround'⟩
  · exact ⟨hquote, hsquare, hsquare'⟩

theorem space (h : IsBracket opener closer) : Passes opener closer [' '] :=
  of_quiet h (by decide)

-- Brackets of either kind do not hide one another's partners.
theorem enclosed (h : IsBracket opener closer) {opener' closer' : Char}
    (h' : IsBracket opener' closer') {inside : List Char} (hinside : Passes opener closer inside) :
    Passes opener closer (opener' :: (inside ++ [closer'])) := by
  rcases h with ⟨rfl, rfl⟩ | ⟨rfl, rfl⟩ <;> rcases h' with ⟨rfl, rfl⟩ | ⟨rfl, rfl⟩
  · exact group (by decide) (by decide) (by decide) hinside
  · exact (char (by decide) (by decide) (by decide)).append
      (hinside.append (char (by decide) (by decide) (by decide)))
  · exact (char (by decide) (by decide) (by decide)).append
      (hinside.append (char (by decide) (by decide) (by decide)))
  · exact group (by decide) (by decide) (by decide) hinside

end Passes

namespace Expr

-- Every tree begins with something that can be seen, and that is no colon.
theorem exists_text_eq (t : Expr) :
    ∃ c more, t.text = c :: more ∧ Visible c ∧ c ≠ ':' := by
  induction t with
  | number digits =>
      obtain ⟨c, more, hchars, hc⟩ := digits.exists_cons
      exact ⟨c, more, hchars, .of_isDigit hc, ne_of_class hc (by decide)⟩
  | name word =>
      obtain ⟨c, more, hchars, hc⟩ := word.exists_cons
      exact ⟨c, more, hchars, .of_isAlpha hc, ne_of_class hc (by decide)⟩
  | paren inner ih => exact ⟨'(', _, rfl, by decide, by decide⟩
  | list items ih => exact ⟨'[', _, rfl, by decide, by decide⟩
  | unary op operand ih =>
      have htable : ∀ entry ∈ Operator.unarySpellings,
          ∃ c more, entry.1 = c :: more ∧ Visible c ∧ c ≠ ':' := by
        simp only [Operator.unarySpellings, List.forall_mem_cons, List.not_mem_nil, false_imp_iff,
          implies_true, and_true]
        and_intros <;> exact ⟨_, _, rfl, by decide, by decide⟩
      obtain ⟨c, more, hspelling, hc⟩ := htable _ op.mem
      have hspelling : op.spelling = c :: more := hspelling
      exact ⟨c, _, by rw [text, hspelling]; rfl, hc⟩
  | stepBefore step word =>
      cases step <;> exact ⟨_, _, rfl, by decide, by decide⟩
  | binary op left right hleft hright =>
      obtain ⟨c, more, htext, hc⟩ := hleft
      exact ⟨c, _, by rw [text, htext]; rfl, hc⟩
  | ternary condition yes no hcondition hyes hno =>
      obtain ⟨c, more, htext, hc⟩ := hcondition
      exact ⟨c, _, by rw [text, htext]; rfl, hc⟩
  | sequence left right hleft hright =>
      obtain ⟨c, more, htext, hc⟩ := hleft
      exact ⟨c, _, by rw [text, htext]; rfl, hc⟩
  | assign op target value ih | assignElement op target index value ih ih' | stepAfter step target
  | call target arguments ih | element target index ih =>
      obtain ⟨c, more, hchars, hc⟩ := target.exists_cons
      exact ⟨c, _, by rw [text, hchars]; rfl, .of_isAlpha hc, ne_of_class hc (by decide)⟩

section Brackets

variable {opener closer : Char} (h : IsBracket opener closer)

include h

theorem passes_name (word : Name) : Passes opener closer word.chars := by
  refine .of_quiet h ?_
  have hident := List.all_eq_true.mp word.ident
  exact List.all_eq_true.mpr fun c hc => isQuiet_of_isIdentChar (hident c hc)

theorem passes_spelled {table : List (List Char × α)} (op : Spelled table)
    (htable : ∀ entry ∈ table, entry.1.all isQuiet = true) : Passes opener closer op.spelling :=
  .of_quiet h (htable _ op.mem)

theorem passes_moreText {more : List Expr} (hmore : ∀ item ∈ more, Passes opener closer item.text) :
    Passes opener closer (moreText more) := by
  induction more with
  | nil => exact .nil
  | cons item more ih =>
      have hitem : Passes opener closer item.text := hmore item List.mem_cons_self
      have hrest : Passes opener closer (moreText more) :=
        ih fun other hother => hmore other (List.mem_cons_of_mem item hother)
      exact ((Passes.of_quiet h (by decide)).append hitem).append hrest

theorem passes_itemsText {items : List Expr}
    (hitems : ∀ item ∈ items, Passes opener closer item.text) :
    Passes opener closer (itemsText items) := by
  cases items with
  | nil => exact .nil
  | cons item more =>
      have hitem : Passes opener closer item.text := hitems item List.mem_cons_self
      have hrest : Passes opener closer (moreText more) :=
        passes_moreText h fun other hother => hitems other (List.mem_cons_of_mem item hother)
      exact ((Passes.space h).append hitem).append hrest

-- A group of a tree, with the space before the closing bracket.
theorem passes_group {opener' closer' : Char} (h' : IsBracket opener' closer') {inside : List Char}
    (hinside : Passes opener closer inside) :
    Passes opener closer ([opener'] ++ inside ++ [' ', closer']) := by
  have henclosed := Passes.enclosed h h' (hinside.append (.space h))
  simpa using henclosed

theorem passes_text (t : Expr) : Passes opener closer t.text := by
  have hspace : Passes opener closer [' '] := .space h
  induction t with
  | number digits =>
      refine .of_quiet h (List.all_eq_true.mpr fun c hc => isQuiet_of_isIdentChar ?_)
      have hdigit : c.isDigit = true := List.all_eq_true.mp digits.digits c hc
      simp [isIdentChar, Char.isAlphanum, hdigit]
  | name word => exact passes_name h word
  | paren inner ih =>
      have hgroup := passes_group h (Or.inl ⟨rfl, rfl⟩) (hspace.append ih)
      simpa [text] using hgroup
  | unary op operand ih =>
      exact ((passes_spelled h op (by decide)).append hspace).append ih
  | binary op left right hleft hright =>
      have hop := passes_spelled h op (by decide)
      exact (((hleft.append hspace).append hop).append hspace).append hright
  | ternary condition yes no hcondition hyes hno =>
      have hquestion : Passes opener closer [' ', '?', ' '] := .of_quiet h (by decide)
      have hcolon : Passes opener closer [' ', ':', ' '] := .of_quiet h (by decide)
      exact (((hcondition.append hquestion).append hyes).append hcolon).append hno
  | assign op target value ih =>
      have hop := passes_spelled h op (by decide)
      exact ((((passes_name h target).append hspace).append hop).append hspace).append ih
  | assignElement op target index value hindex hvalue =>
      have hgroup := passes_group h (Or.inr ⟨rfl, rfl⟩) (hspace.append hindex)
      have hop := passes_spelled h op (by decide)
      have hall := (((((passes_name h target).append hspace).append hgroup).append hspace).append
        hop).append (hspace.append hvalue)
      simpa [text] using hall
  | stepBefore step word =>
      have hstep : Passes opener closer step.spelling := .of_quiet h (by cases step <;> decide)
      exact (hstep.append hspace).append (passes_name h word)
  | stepAfter step word =>
      have hstep : Passes opener closer step.spelling := .of_quiet h (by cases step <;> decide)
      exact ((passes_name h word).append hspace).append hstep
  | sequence left right hleft hright =>
      have hcomma : Passes opener closer [' ', ',', ' '] := .of_quiet h (by decide)
      exact (hleft.append hcomma).append hright
  | list items ih => exact passes_group h (Or.inr ⟨rfl, rfl⟩) (passes_itemsText h ih)
  | call function arguments ih =>
      have hgroup := passes_group h (Or.inl ⟨rfl, rfl⟩) (passes_itemsText h ih)
      have hall := ((passes_name h function).append hspace).append hgroup
      simpa [text] using hall
  | element word index ih =>
      have hgroup := passes_group h (Or.inr ⟨rfl, rfl⟩) (hspace.append ih)
      have hall := ((passes_name h word).append hspace).append hgroup
      simpa [text] using hall

end Brackets

end Expr

end FormulaCode
