import FormulaCode.Proofs.Code.Layout
import FormulaCode.Proofs.Expr.Syntax

namespace FormulaCode

namespace Expr

def width (t : Expr) : Nat :=
  byteLength t.text

mutual

-- The tokens of a tree whose text begins at a byte offset.
@[simp] def tokens : Expr → Nat → List Token
  | number digits, pos => [⟨pos, digits.chars, .number⟩]
  | name word, pos => [⟨pos, word.chars, .name⟩]
  | paren inner, pos =>
      [⟨pos, ['('], .opening .subExpr⟩] ++ inner.tokens (pos + 2) ++
        [⟨pos + 2 + inner.width + 1, [')'], .closing .subExpr⟩]
  | unary op operand, pos =>
      [⟨pos, op.spelling, .unary op.meaning⟩] ++
        operand.tokens (pos + byteLength op.spelling + 1)
  | binary op left right, pos =>
      let mark := pos + left.width + 1
      left.tokens pos ++ [⟨mark, op.spelling, .binary op.meaning⟩] ++
        right.tokens (mark + byteLength op.spelling + 1)
  | ternary condition yes no, pos =>
      let question := pos + condition.width + 1
      let colon := question + 2 + yes.width + 1
      condition.tokens pos ++ [⟨question, ['?'], .ternary .question⟩] ++
        yes.tokens (question + 2) ++ [⟨colon, [':'], .ternary .colon⟩] ++ no.tokens (colon + 2)
  | assign op target value, pos =>
      let mark := pos + byteLength target.chars + 1
      [⟨pos, target.chars, .name⟩, ⟨mark, op.spelling, .assign op.meaning⟩] ++
        value.tokens (mark + byteLength op.spelling + 1)
  | assignElement op target index value, pos =>
      let opened := pos + byteLength target.chars + 1
      let closed := opened + 2 + index.width + 1
      [⟨pos, target.chars, .name⟩, ⟨opened, ['['], .opening .subscript⟩] ++
        index.tokens (opened + 2) ++
        [⟨closed, [']'], .closing (.subscript .index)⟩,
          ⟨closed + 2, op.spelling, .assign op.meaning⟩] ++
        value.tokens (closed + 2 + byteLength op.spelling + 1)
  | stepBefore step word, pos =>
      [⟨pos, step.spelling, .stepBefore step.before⟩, ⟨pos + 3, word.chars, .name⟩]
  | stepAfter step word, pos =>
      [⟨pos, word.chars, .name⟩,
        ⟨pos + byteLength word.chars + 1, step.spelling, .stepAfter step.after⟩]
  | sequence left right, pos =>
      let mark := pos + left.width + 1
      left.tokens pos ++ [⟨mark, [','], .binary .sequence⟩] ++ right.tokens (mark + 2)
  | list items, pos =>
      [⟨pos, ['['], .opening .list⟩] ++ itemsTokens items (pos + 1) ++
        [⟨pos + 1 + byteLength (itemsText items) + 1, [']'], .closing (.list items.length)⟩]
  | call function arguments, pos =>
      let opened := pos + byteLength function.chars + 1
      [⟨pos, function.chars, .name⟩, ⟨opened, ['('], .opening .call⟩] ++
        itemsTokens arguments (opened + 1) ++
        [⟨opened + 1 + byteLength (itemsText arguments) + 1, [')'],
          .closing (.call arguments.length)⟩]
  | element word index, pos =>
      let opened := pos + byteLength word.chars + 1
      [⟨pos, word.chars, .name⟩, ⟨opened, ['['], .opening .subscript⟩] ++
        index.tokens (opened + 2) ++
        [⟨opened + 2 + index.width + 1, [']'], .closing (.subscript .index)⟩]

def itemsTokens : List Expr → Nat → List Token
  | [], _ => []
  | item :: more, pos => item.tokens (pos + 1) ++ moreTokens more (pos + 1 + item.width)

def moreTokens : List Expr → Nat → List Token
  | [], _ => []
  | item :: more, pos =>
      [⟨pos + 1, [','], .binary .collect⟩] ++ item.tokens (pos + 3) ++
        moreTokens more (pos + 3 + item.width)

end

-- One instruction without a text.
def single (op : Op) (pos : Nat) : List Record :=
  [.instr ⟨op, 1, .ofNat pos⟩]

theorem single_eq_block (op : Op) (pos : Nat) :
    single op pos = Code.block ⟨op, 1, .ofNat pos⟩ [] := rfl

-- An instruction that names something.
def naming (op : Op) (word : Name) (pos : Nat) : List Record :=
  Code.block ⟨op, 1 + (textChunks word.chars).length, .ofNat pos⟩ (textChunks word.chars)

theorem length_naming (op : Op) (word : Name) (pos : Nat) :
    (naming op word pos).length = 1 + (textChunks word.chars).length := by
  simp [naming, Code.block]
  omega

-- The branch with which `&&` and `||` leave out their right side.
def shortcut? : Operator → Option (Branch → Op)
  | .logicalAnd => some .branchIfFalse
  | .logicalOr => some .branchIfTrue
  | _ => none

theorem shortcut?_cases {op : Operator} {branch : Branch → Op} (h : shortcut? op = some branch) :
    (op = .logicalAnd ∧ branch = .branchIfFalse) ∨ (op = .logicalOr ∧ branch = .branchIfTrue) := by
  unfold shortcut? at h
  split at h
  · exact Or.inl ⟨rfl, (Option.some.inj h).symm⟩
  · exact Or.inr ⟨rfl, (Option.some.inj h).symm⟩
  · cases h

mutual

-- The code of a tree: operands from left to right and then what joins them. The text of the tree
-- begins at the byte offset `pos`, and `base` records stand before its code.
@[simp] def records : Expr → Nat → Nat → List Record
  | number digits, pos, _ => single (.pushNumber (Numeral.decimal digits.chars none none).value) pos
  | name word, pos, _ => naming .lookupValue word pos
  | paren inner, pos, base => inner.records (pos + 2) base
  | unary op operand, pos, base =>
      operand.records (pos + byteLength op.spelling + 1) base ++ single (.operator op.meaning) pos
  | binary op left right, pos, base =>
      let mark := pos + left.width + 1
      let first := left.records pos base
      match shortcut? op.meaning with
      | none =>
          first ++ right.records (mark + byteLength op.spelling + 1) (base + first.length) ++
            single (.operator op.meaning) mark
      | some branch =>
          let second :=
            right.records (mark + byteLength op.spelling + 1) (base + first.length + 1)
          let target := base + first.length + 1 + second.length + 1
          first ++ single (branch ⟨some target, false⟩) mark ++ second ++ single .makeBool mark
  | ternary condition yes no, pos, base =>
      let question := pos + condition.width + 1
      let colon := question + 2 + yes.width + 1
      let first := condition.records pos base
      let second := yes.records (question + 2) (base + first.length + 1)
      let other := base + first.length + 1 + second.length + 1
      let third := no.records (colon + 2) other
      first ++ single (.branchIfFalse ⟨some other, true⟩) question ++ second ++
        single (.goto (some (other + third.length))) colon ++ third
  | assign op target value, pos, base =>
      let mark := pos + byteLength target.chars + 1
      let first := naming .lookupPointer target pos
      first ++ value.records (mark + byteLength op.spelling + 1) (base + first.length) ++
        single (.assign op.meaning) mark
  | assignElement op target index value, pos, base =>
      let opened := pos + byteLength target.chars + 1
      let closed := opened + 2 + index.width + 1
      let first := naming .lookupValue target pos
      let place := first ++ index.records (opened + 2) (base + first.length) ++
        single (.slicePointer .index) closed
      place ++
        value.records (closed + 2 + byteLength op.spelling + 1) (base + place.length) ++
        single (.assign op.meaning) (closed + 2)
  | stepBefore step word, pos, _ =>
      naming .lookupPointer word (pos + 3) ++ single (.incDec step.before) pos
  | stepAfter step word, pos, _ =>
      naming .lookupPointer word pos ++
        single (.incDec step.after) (pos + byteLength word.chars + 1)
  | sequence left right, pos, base =>
      let mark := pos + left.width + 1
      let first := left.records pos base
      first ++ right.records (mark + 2) (base + first.length) ++ single (.operator .sequence) mark
  | list items, pos, base =>
      itemsRecords items (pos + 1) base ++
        single (.makeList items.length) (pos + 1 + byteLength (itemsText items) + 1)
  | call function arguments, pos, base =>
      let opened := pos + byteLength function.chars + 1
      let first := naming .lookupValue function pos
      first ++ itemsRecords arguments (opened + 1) (base + first.length) ++
        single (.call arguments.length) (opened + 1 + byteLength (itemsText arguments) + 1)
  | element word index, pos, base =>
      let opened := pos + byteLength word.chars + 1
      let first := naming .lookupValue word pos
      first ++ index.records (opened + 2) (base + first.length) ++
        single (.sliceValue .index) (opened + 2 + index.width + 1)

def itemsRecords : List Expr → Nat → Nat → List Record
  | [], _, _ => []
  | item :: more, pos, base =>
      let first := item.records (pos + 1) base
      first ++ moreRecords more (pos + 1 + item.width) (base + first.length)

def moreRecords : List Expr → Nat → Nat → List Record
  | [], _, _ => []
  | item :: more, pos, base =>
      let first := item.records (pos + 3) base
      first ++ moreRecords more (pos + 3 + item.width) (base + first.length)

end

-- The code of a formula, before its branches are threaded.
def code (t : Expr) : Code :=
  ⟨(t.records 0 0 ++ single .ret t.width).toArray⟩

end Expr

end FormulaCode
