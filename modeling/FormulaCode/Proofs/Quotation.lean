import FormulaCode.Proofs.Literal

namespace FormulaCode

-- The characters that a backslash stands for in every literal but a raw one.
def isEscapable (c : Char) : Bool :=
  c = '\\' || isQuote c

-- A text with a backslash in front of every backslash and every quote.
def escape (text : List Char) : List Char :=
  text.flatMap fun c => if isEscapable c then ['\\', c] else [c]

-- A way to write a string as a literal: its mark, its quotes, and whether there are three of them on
-- either side. A raw literal has one quote.
structure Quotation where
  mark : Option Char
  quote : Char
  triple : Bool
  quotes : isQuote quote = true
  marks : mark ∈ [none, some 'e', some 'E'] ∨ mark ∈ [some 'r', some 'R'] ∧ triple = false

namespace Quotation

def escapes (q : Quotation) : Escapes :=
  match q.mark with
  | none => .plain
  | some mark => if mark = 'e' || mark = 'E' then .extended else .raw

-- What is written between the quotes.
def body (q : Quotation) (text : List Char) : List Char :=
  if q.escapes = .raw then text else escape text

def write (q : Quotation) (text : List Char) : List Char :=
  q.mark.toList ++ (closingQuotes q.quote q.triple ++
    (q.body text ++ closingQuotes q.quote q.triple))

-- Nothing in a raw literal keeps its quote from closing it.
def Holds (q : Quotation) (text : List Char) : Prop :=
  q.escapes = .raw → q.quote ∉ text

-- The literal that is found where a text is written.
def literal (q : Quotation) (text : List Char) : Literal :=
  ⟨q.escapes, q.mark.isSome, q.triple, q.body text⟩

end Quotation

namespace Quotation

variable (q : Quotation) {text rest : List Char}

end Quotation

end FormulaCode
