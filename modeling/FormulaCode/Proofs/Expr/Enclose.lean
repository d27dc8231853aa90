import FormulaCode.Proofs.Expr.Eval

namespace FormulaCode

namespace Expr

-- Parentheses around a tree that binds too loosely for its place.
def within (limit : Nat) (t : Expr) : Expr :=
  if t.level ≤ limit then t else paren t

theorem level_within (limit : Nat) (t : Expr) : (t.within limit).level ≤ limit := by
  unfold within
  split
  · assumption
  · exact Nat.zero_le _

theorem Fits.within {t : Expr} (h : t.Fits) (limit : Nat) : (t.within limit).Fits := by
  unfold Expr.within
  split
  · exact h
  · rw [Fits]
    exact h

theorem within_of_level_le {limit : Nat} {t : Expr} (h : t.level ≤ limit) : t.within limit = t :=
  if_pos h

mutual

-- A tree with parentheses wherever a part does not fit.
def enclose : Expr → Expr
  | number digits => number digits
  | name word => name word
  | paren inner => paren inner.enclose
  | unary op operand => unary op (operand.enclose.within 2)
  | binary op left right =>
      if op.meaning = .power then binary op (left.enclose.within 1) (right.enclose.within 3)
      else binary op (left.enclose.within op.meaning.precedence)
        (right.enclose.within (op.meaning.precedence - 1))
  | ternary condition yes no =>
      ternary (condition.enclose.within 15) yes.enclose (no.enclose.within 17)
  | assign op target value => assign op target (value.enclose.within 17)
  | assignElement op target index value =>
      assignElement op target index.enclose (value.enclose.within 17)
  | stepBefore step word => stepBefore step word
  | stepAfter step word => stepAfter step word
  | sequence left right => sequence left.enclose (right.enclose.within 17)
  | list items => list (encloseItems items)
  | call function arguments => call function (encloseItems arguments)
  | element word index => element word index.enclose

def encloseItems : List Expr → List Expr
  | [] => []
  | item :: more => item.enclose.within 17 :: encloseItems more

end

theorem encloseItems_eq_map (items : List Expr) :
    encloseItems items = items.map fun item => item.enclose.within 17 := by
  induction items with
  | nil => rfl
  | cons item more ih => rw [encloseItems, ih, List.map_cons]

theorem level_le_eighteen (t : Expr) : t.level ≤ 18 := by
  cases t with
  | binary op left right =>
      have hprecedence : ∀ entry ∈ Operator.binarySpellings, entry.2.precedence ≤ 18 := by decide
      exact hprecedence _ op.mem
  | _ => simp [level]

theorem encloseItems_fit {items : List Expr} (ih : ∀ item ∈ items, item.enclose.Fits) :
    ItemsFit (encloseItems items) := by
  rw [itemsFit_iff, encloseItems_eq_map]
  intro item hitem
  obtain ⟨inner, hinner, rfl⟩ := List.mem_map.mp hitem
  exact ⟨level_within 17 _, (ih inner hinner).within 17⟩

theorem enclose_fits (t : Expr) : t.enclose.Fits := by
  induction t with
  | number digits => trivial
  | name word => trivial
  | paren inner ih => exact ih
  | unary op operand ih => exact ⟨level_within 2 _, ih.within 2⟩
  | binary op left right ihleft ihright =>
      rw [enclose]
      split
      · rename_i hpower
        have hright := level_within 3 right.enclose
        rw [Fits, if_pos hpower]
        exact ⟨⟨level_within 1 _, by omega⟩, ihleft.within 1, ihright.within 3⟩
      · rename_i hpower
        have hall : ∀ entry ∈ Operator.binarySpellings, 0 < entry.2.precedence := by decide
        have hpositive : 0 < op.meaning.precedence := hall _ op.mem
        have hright := level_within (op.meaning.precedence - 1) right.enclose
        rw [Fits, if_neg hpower]
        exact ⟨⟨level_within _ _, by omega⟩, ihleft.within _, ihright.within _⟩
  | ternary condition yes no ihcondition ihyes ihno =>
      have hno := level_within 17 no.enclose
      exact ⟨level_within 15 _, by omega, ihcondition.within 15, ihyes, ihno.within 17⟩
  | assign op target value ih => exact ⟨level_within 17 _, ih.within 17⟩
  | assignElement op target index value ihindex ihvalue =>
      exact ⟨level_within 17 _, ihindex, ihvalue.within 17⟩
  | stepBefore step word => trivial
  | stepAfter step word => trivial
  | sequence left right ihleft ihright =>
      exact ⟨level_le_eighteen _, level_within 17 _, ihleft, ihright.within 17⟩
  | list items ih => exact encloseItems_fit ih
  | call function arguments ih => exact encloseItems_fit ih
  | element word index ih => exact ih

-- A tree whose parts fit needs no parentheses.
theorem enclose_eq_self {t : Expr} (h : t.Fits) : t.enclose = t := by
  have hitems : ∀ items : List Expr, (∀ item ∈ items, item.Fits → item.enclose = item) →
      ItemsFit items → encloseItems items = items := by
    intro items ih hfit
    have hsame : ∀ item ∈ items, item.enclose.within 17 = id item := by
      intro item hitem
      obtain ⟨hlevel, hitemFits⟩ := itemsFit_iff.mp hfit item hitem
      rw [ih item hitem hitemFits, within_of_level_le hlevel, id]
    rw [encloseItems_eq_map, List.map_congr_left hsame, List.map_id]
  induction t with
  | number digits => rfl
  | name word => rfl
  | paren inner ih => rw [enclose, ih h]
  | unary op operand ih => rw [enclose, ih h.2, within_of_level_le h.1]
  | binary op left right ihleft ihright =>
      obtain ⟨hlevels, hleft, hright⟩ := h
      rw [enclose, ihleft hleft, ihright hright]
      split at hlevels
      · rw [if_pos (by assumption), within_of_level_le hlevels.1, within_of_level_le (by omega)]
      · rw [if_neg (by assumption), within_of_level_le hlevels.1, within_of_level_le (by omega)]
  | ternary condition yes no ihcondition ihyes ihno =>
      obtain ⟨hcondition, hno, hfits⟩ := h
      rw [enclose, ihcondition hfits.1, ihyes hfits.2.1, ihno hfits.2.2,
        within_of_level_le hcondition, within_of_level_le (by omega)]
  | assign op target value ih => rw [enclose, ih h.2, within_of_level_le h.1]
  | assignElement op target index value ihindex ihvalue =>
      rw [enclose, ihindex h.2.1, ihvalue h.2.2, within_of_level_le h.1]
  | stepBefore step word => rfl
  | stepAfter step word => rfl
  | sequence left right ihleft ihright =>
      rw [enclose, ihleft h.2.2.1, ihright h.2.2.2, within_of_level_le h.2.1]
  | list items ih => rw [enclose, hitems items ih h]
  | call function arguments ih => rw [enclose, hitems arguments ih h]
  | element word index ih => rw [enclose, ih h]

section Eval

variable {σ ν : Type} (I : Interpretation σ ν)

theorem eval_within (limit : Nat) (t : Expr) : (t.within limit).eval I = t.eval I := by
  unfold within
  split
  · rfl
  · rw [eval]

theorem evalItems_enclose {items : List Expr}
    (ih : ∀ item ∈ items, item.enclose.eval I = item.eval I) :
    evalItems I (encloseItems items) = evalItems I items := by
  induction items with
  | nil => rfl
  | cons item more ihmore =>
      have hmore := ihmore fun other hother => ih other (List.mem_cons_of_mem _ hother)
      rw [encloseItems, evalItems, evalItems, eval_within, ih item List.mem_cons_self, hmore]

-- Parentheses do not change a value.
theorem eval_enclose (t : Expr) : t.enclose.eval I = t.eval I := by
  induction t with
  | number digits => rfl
  | name word => rfl
  | paren inner ih => rw [enclose, eval, eval, ih]
  | unary op operand ih => rw [enclose, eval, eval, eval_within, ih]
  | binary op left right ihleft ihright =>
      rw [enclose]
      split <;> rw [eval, eval, eval_within, eval_within, ihleft, ihright]
  | ternary condition yes no ihcondition ihyes ihno =>
      rw [enclose, eval, eval, eval_within, eval_within, ihcondition, ihyes, ihno]
  | assign op target value ih => rw [enclose, eval, eval, eval_within, ih]
  | assignElement op target index value ihindex ihvalue =>
      rw [enclose, eval, eval, eval_within, ihindex, ihvalue]
  | stepBefore step word => rfl
  | stepAfter step word => rfl
  | sequence left right ihleft ihright => rw [enclose, eval, eval, eval_within, ihleft, ihright]
  | list items ih =>
      rw [enclose, eval, eval, evalItems_enclose I ih, encloseItems_eq_map, List.length_map]
  | call function arguments ih =>
      rw [enclose, eval, eval, evalItems_enclose I ih, encloseItems_eq_map, List.length_map]
  | element word index ih => rw [enclose, eval, eval, ih]

end Eval

end Expr

end FormulaCode
