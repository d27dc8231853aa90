import FormulaCode.Token.Lexer

namespace FormulaCode

-- A number of decimal digits.
structure Digits where
  chars : List Char
  ne_nil : chars ≠ []
  digits : chars.all Char.isDigit = true

-- A name that is no operator, and that makes nothing special of a call.
structure Name where
  chars : List Char
  letter : startsWithLetter chars = true
  ident : chars.all isIdentChar = true
  notKeyword : keywords.contains chars = false
  notBinder : binderStem? chars = none
  notTextual : textFunctions.contains chars = false

theorem Digits.exists_cons (digits : Digits) :
    ∃ c more, digits.chars = c :: more ∧ c.isDigit = true := by
  obtain ⟨c, more, hchars⟩ := List.exists_cons_of_ne_nil digits.ne_nil
  have hall := digits.digits
  rw [hchars, List.all_cons, Bool.and_eq_true] at hall
  exact ⟨c, more, hchars, hall.1⟩

theorem Name.exists_cons (word : Name) :
    ∃ c more, word.chars = c :: more ∧ c.isAlpha = true := by
  have hletter := word.letter
  cases hchars : word.chars with
  | nil =>
      rw [hchars] at hletter
      cases hletter
  | cons c more =>
      rw [hchars] at hletter
      exact ⟨c, more, rfl, hletter⟩

-- An entry of a table of operators.
structure Spelled (table : List (List Char × α)) where
  spelling : List Char
  meaning : α
  mem : (spelling, meaning) ∈ table

inductive Step where
  | increment
  | decrement

def Step.spelling : Step → List Char
  | increment => ['+', '+']
  | decrement => ['-', '-']

def Step.before : Step → Operator
  | increment => .preIncrement
  | decrement => .preDecrement

def Step.after : Step → Operator
  | increment => .postIncrement
  | decrement => .postDecrement

-- The operator language as trees. Only names and their elements are assigned to.
inductive Expr where
  | number (digits : Digits)
  | name (word : Name)
  | paren (inner : Expr)
  | unary (op : Spelled Operator.unarySpellings) (operand : Expr)
  | binary (op : Spelled Operator.binarySpellings) (left right : Expr)
  | ternary (condition yes no : Expr)
  | assign (op : Spelled Assignment.spellings) (target : Name) (value : Expr)
  | assignElement (op : Spelled Assignment.spellings) (target : Name) (index value : Expr)
  | stepBefore (step : Step) (word : Name)
  | stepAfter (step : Step) (word : Name)
  | sequence (left right : Expr)
  | list (items : List Expr)
  | call (function : Name) (arguments : List Expr)
  | element (word : Name) (index : Expr)

namespace Expr

-- How loosely the outermost operator binds.
def level : Expr → Nat
  | number _ | name _ | paren _ | stepAfter _ _ | list _ | call _ _ | element _ _ => 0
  | stepBefore _ _ => 1
  | unary _ _ => 3
  | binary op _ _ => op.meaning.precedence
  | ternary _ _ _ => 16
  | assign _ _ _ | assignElement _ _ _ _ => 17
  | sequence _ _ => 18

mutual

-- Each part stands where its level allows it without parentheses.
def Fits : Expr → Prop
  | number _ | name _ | stepBefore _ _ | stepAfter _ _ => True
  | paren inner => inner.Fits
  | unary _ operand => operand.level ≤ 2 ∧ operand.Fits
  | binary op left right =>
      (if op.meaning = .power then left.level ≤ 1 ∧ (right.level ≤ 2 ∨ right.level = 3)
        else left.level ≤ op.meaning.precedence ∧ right.level < op.meaning.precedence) ∧
      left.Fits ∧ right.Fits
  | ternary condition yes no =>
      condition.level ≤ 15 ∧ (no.level ≤ 16 ∨ no.level = 17) ∧ condition.Fits ∧ yes.Fits ∧ no.Fits
  | assign _ _ value => value.level ≤ 17 ∧ value.Fits
  | assignElement _ _ index value => value.level ≤ 17 ∧ index.Fits ∧ value.Fits
  | sequence left right => left.level ≤ 18 ∧ right.level ≤ 17 ∧ left.Fits ∧ right.Fits
  | list items => ItemsFit items
  | call _ arguments => ItemsFit arguments
  | element _ index => index.Fits

def ItemsFit : List Expr → Prop
  | [] => True
  | item :: more => (item.level ≤ 17 ∧ item.Fits) ∧ ItemsFit more

end

theorem itemsFit_iff {items : List Expr} :
    ItemsFit items ↔ ∀ item ∈ items, item.level ≤ 17 ∧ item.Fits := by
  induction items with
  | nil => simp [ItemsFit]
  | cons item more ih => simp [ItemsFit, ih]

mutual

-- The text of a tree, with one space between tokens.
def text : Expr → List Char
  | number digits => digits.chars
  | name word => word.chars
  | paren inner => ['(', ' '] ++ inner.text ++ [' ', ')']
  | unary op operand => op.spelling ++ [' '] ++ operand.text
  | binary op left right => left.text ++ [' '] ++ op.spelling ++ [' '] ++ right.text
  | ternary condition yes no =>
      condition.text ++ [' ', '?', ' '] ++ yes.text ++ [' ', ':', ' '] ++ no.text
  | assign op target value => target.chars ++ [' '] ++ op.spelling ++ [' '] ++ value.text
  | assignElement op target index value =>
      target.chars ++ [' ', '[', ' '] ++ index.text ++ [' ', ']', ' '] ++ op.spelling ++ [' '] ++
        value.text
  | stepBefore step word => step.spelling ++ [' '] ++ word.chars
  | stepAfter step word => word.chars ++ [' '] ++ step.spelling
  | sequence left right => left.text ++ [' ', ',', ' '] ++ right.text
  | list items => ['['] ++ itemsText items ++ [' ', ']']
  | call function arguments => function.chars ++ [' ', '('] ++ itemsText arguments ++ [' ', ')']
  | element word index => word.chars ++ [' ', '[', ' '] ++ index.text ++ [' ', ']']

-- Items with a space before each, and commas between them.
def itemsText : List Expr → List Char
  | [] => []
  | item :: more => [' '] ++ item.text ++ moreText more

def moreText : List Expr → List Char
  | [] => []
  | item :: more => [' ', ',', ' '] ++ item.text ++ moreText more

end

mutual

-- Whether anything is assigned to by an assignment operator.
def assigns : Expr → Bool
  | number _ | name _ | stepBefore _ _ | stepAfter _ _ => false
  | paren inner => inner.assigns
  | unary _ operand => operand.assigns
  | binary _ left right => left.assigns || right.assigns
  | ternary condition yes no => condition.assigns || yes.assigns || no.assigns
  | assign _ _ _ | assignElement _ _ _ _ => true
  | sequence left right => left.assigns || right.assigns
  | list items => itemsAssign items
  | call _ arguments => itemsAssign arguments
  | element _ index => index.assigns

def itemsAssign : List Expr → Bool
  | [] => false
  | item :: more => item.assigns || itemsAssign more

end

mutual

-- The number of brackets with something inside that are open at once.
def nesting : Expr → Nat
  | number _ | name _ | stepBefore _ _ | stepAfter _ _ => 0
  | paren inner => inner.nesting + 1
  | unary _ operand => operand.nesting
  | binary _ left right => max left.nesting right.nesting
  | ternary condition yes no => max condition.nesting (max yes.nesting no.nesting)
  | assign _ _ value => value.nesting
  | assignElement _ _ index value => max (index.nesting + 1) value.nesting
  | sequence left right => max left.nesting right.nesting
  | list items => itemsNesting items
  | call _ arguments => itemsNesting arguments
  | element _ index => index.nesting + 1

def itemsNesting : List Expr → Nat
  | [] => 0
  | item :: more => max (item.nesting + 1) (itemsNesting more)

end

mutual

-- The number of operators and brackets that are open at once while the tree is read.
@[simp] def depth : Expr → Nat
  | number _ | name _ | stepAfter _ _ => 0
  | stepBefore _ _ => 1
  | paren inner => inner.depth + 1
  | unary _ operand => operand.depth + 1
  | binary _ left right => max left.depth (right.depth + 1)
  | ternary condition yes no => max condition.depth (max yes.depth no.depth + 1)
  | assign _ _ value => value.depth + 1
  | assignElement _ _ index value => max index.depth value.depth + 1
  | sequence left right => max left.depth (right.depth + 1)
  | list items => itemsDepth items + 1
  | call _ arguments => itemsDepth arguments + 1
  | element _ index => index.depth + 1

def itemsDepth : List Expr → Nat
  | [] => 0
  | item :: more => max item.depth (itemsDepth more)

end

-- A principle of induction that knows of every item of a list.
@[elab_as_elim, induction_eliminator]
theorem induction {motive : Expr → Prop}
    (number : ∀ digits, motive (number digits))
    (name : ∀ word, motive (name word))
    (paren : ∀ inner, motive inner → motive (paren inner))
    (unary : ∀ op operand, motive operand → motive (unary op operand))
    (binary : ∀ op left right, motive left → motive right → motive (binary op left right))
    (ternary : ∀ condition yes no, motive condition → motive yes → motive no →
      motive (ternary condition yes no))
    (assign : ∀ op target value, motive value → motive (assign op target value))
    (assignElement : ∀ op target index value, motive index → motive value →
      motive (assignElement op target index value))
    (stepBefore : ∀ step word, motive (stepBefore step word))
    (stepAfter : ∀ step word, motive (stepAfter step word))
    (sequence : ∀ left right, motive left → motive right → motive (sequence left right))
    (list : ∀ items, (∀ item ∈ items, motive item) → motive (list items))
    (call : ∀ function arguments, (∀ item ∈ arguments, motive item) →
      motive (call function arguments))
    (element : ∀ word index, motive index → motive (element word index)) :
    ∀ t, motive t := by
  intro t
  refine @Expr.rec motive (fun items => ∀ item ∈ items, motive item)
    number name paren unary binary ternary assign assignElement stepBefore stepAfter sequence
    list call element ?_ ?_ t
  · intro item hitem
    cases hitem
  · intro first more hfirst hmore item hitem
    rcases List.mem_cons.mp hitem with rfl | hitem
    · exact hfirst
    · exact hmore item hitem

end Expr

end FormulaCode
