import FormulaCode.Literal

namespace FormulaCode

-- What the search for a bracket remembers of the characters it has passed: whether the last one
-- belongs to a word, and whether a quote here would open a raw literal, because the word before
-- it is the single letter `r`.
structure Trail where
  inWord : Bool
  raw : Bool

def Trail.start : Trail :=
  ⟨false, false⟩

def Trail.push (trail : Trail) (c : Char) : Trail :=
  ⟨isIdentChar c, (c = 'r' || c = 'R') && !trail.inWord⟩

-- Characters of a quoted text after its opening quote, the closing quote included.
def quotedWidth? (quote : Char) (raw : Bool) (afterQuote : List Char) : Option Nat :=
  let triple := opensTriple quote afterQuote
  let text := if triple then afterQuote.drop 2 else afterQuote
  (quotedBody? quote triple raw text).map fun body =>
    body.length + (if triple then 5 else 1)

-- The characters before the bracket that closes the first one opened in a text. Quoted texts are
-- passed over, `skip` being what is left of one, and only brackets of the one kind are counted.
-- There is no such bracket if a quoted text does not end, or if a bracket closes that none opened.
def beforeClosing? (opens closes : Char → Bool) : Nat → Nat → Trail → List Char → Option (List Char)
  | _, _, _, [] => none
  | depth, skip + 1, _, c :: rest =>
      (beforeClosing? opens closes depth skip Trail.start rest).map (c :: ·)
  | depth, 0, trail, c :: rest =>
      if isQuote c then do
        let skip ← quotedWidth? c trail.raw rest
        (beforeClosing? opens closes depth skip Trail.start rest).map (c :: ·)
      else if opens c then
        (beforeClosing? opens closes (depth + 1) 0 (trail.push c) rest).map (c :: ·)
      else if closes c then
        match depth with
        | 0 => none
        | 1 => some []
        | depth + 1 => (beforeClosing? opens closes depth 0 (trail.push c) rest).map (c :: ·)
      else (beforeClosing? opens closes depth 0 (trail.push c) rest).map (c :: ·)

-- The characters before the closing bracket of a text that starts with the opening one.
def matching? (opens closes : Char → Bool) (text : List Char) : Option (List Char) :=
  beforeClosing? opens closes 0 0 Trail.start text

end FormulaCode
