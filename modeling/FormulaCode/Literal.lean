namespace FormulaCode

def isIdentChar (c : Char) : Bool :=
  c.isAlphanum || c = '_'

-- How backslashes inside a literal are read: `plain` knows backslash and the two quotes,
-- `extended` also the control escapes, `raw` none.
inductive Escapes where
  | plain
  | extended
  | raw
deriving DecidableEq, Repr

def Escapes.name : Escapes → String
  | plain => "Plain"
  | extended => "Extended"
  | raw => "Raw"

-- What stands before the closing quote, for a text that starts just after the opening one. The
-- closing quote is one quote, or three when `triple` is set. Outside raw text a backslash keeps
-- the character after it from closing.
def quotedBody? (quote : Char) (triple raw : Bool) : List Char → Option (List Char)
  | [] => none
  | c :: rest =>
      if c = '\\' && !raw then
        match rest with
        | [] => none
        | escaped :: rest => (quotedBody? quote triple raw rest).map (c :: escaped :: ·)
      else if c = quote && (!triple || [quote, quote].isPrefixOf rest) then some []
      else (quotedBody? quote triple raw rest).map (c :: ·)

-- Three quotes in a row open a text that only three quotes close.
def opensTriple (quote : Char) (afterQuote : List Char) : Bool :=
  [quote, quote].isPrefixOf afterQuote

def isQuote (c : Char) : Bool :=
  c = '\'' || c = '"'

-- A quoted text: its mark, if it has one, its quotes and what stands between them.
structure Literal where
  escapes : Escapes
  marked : Bool
  triple : Bool
  body : List Char
deriving DecidableEq, Repr

inductive Literal.Scan where
  | absent
  | unterminated
  | found (literal : Literal)
deriving DecidableEq, Repr

namespace Literal

def delimiter (l : Literal) : Nat :=
  if l.triple then 3 else 1

-- Characters before the body: the mark and the opening quote.
def opening (l : Literal) : Nat :=
  l.marked.toNat + l.delimiter

-- Characters of the whole literal.
def width (l : Literal) : Nat :=
  l.opening + l.body.length + l.delimiter

def scanQuoted (escapes : Escapes) (marked : Bool) (quote : Char) (afterQuote : List Char) : Scan :=
  let triple := opensTriple quote afterQuote
  let text := if triple then afterQuote.drop 2 else afterQuote
  match quotedBody? quote triple (escapes = .raw) text with
  | some body => .found ⟨escapes, marked, triple, body⟩
  | none => .unterminated

-- Looks for a literal at the start of a text. The mark `r` makes it raw and the mark `e` gives
-- it the extended escapes.
def scan : List Char → Scan
  | [] => .absent
  | c :: rest =>
      if isQuote c then scanQuoted .plain false c rest
      else match rest with
        | [] => .absent
        | quote :: rest =>
            if !isQuote quote then .absent
            else if c = 'r' || c = 'R' then scanQuoted .raw true quote rest
            else if c = 'e' || c = 'E' then scanQuoted .extended true quote rest
            else .absent

-- The character an escape stands for. An unknown escape stands for itself, backslash included.
def escape? (escapes : Escapes) (c : Char) : Option Char :=
  if c = '\\' || c = '\'' || c = '"' then some c
  else if escapes = .extended then
    match c with
    | 'n' => some '\n'
    | 't' => some '\t'
    | 'r' => some '\r'
    | 'a' => some '\x07'
    | 'b' => some '\x08'
    | 'f' => some '\x0c'
    | 'v' => some '\x0b'
    | '?' => some '?'
    | _ => none
  else none

def unescape (escapes : Escapes) : List Char → List Char
  | [] => []
  | '\\' :: c :: rest =>
      match escape? escapes c with
      | some meant => meant :: unescape escapes rest
      | none => '\\' :: c :: unescape escapes rest
  | c :: rest => c :: unescape escapes rest

def decode (l : Literal) : List Char :=
  match l.escapes with
  | .raw => l.body
  | escapes => unescape escapes l.body

end Literal

end FormulaCode
