import FormulaCode.Bracket
import FormulaCode.Text.Blank
import FormulaCode.Token.Move

namespace FormulaCode

-- A part of the tokenizer's work. It adds to the tokens that are recorded, which stay when it
-- fails.
abbrev Lexer := EStateM LexError (Array Token)

-- The end of a level: what was counted in it, the offset where it stopped, and the number of
-- characters it left.
structure LevelEnd where
  items : Nat
  stop : Nat
  left : Nat
deriving DecidableEq, Repr

-- Characters between tokens. All of them take one byte.
def isSkipped (c : Char) : Bool :=
  c ≤ ' '

def Separators.items? : Separators → Option Nat
  | .sequence | .terminate => some 0
  | .items count => some count
  | .pairs count inKey => if inKey then none else some count

def Permissions.separators (permissions : Permissions) : Separators :=
  if permissions.dict then .pairs 0 true
  else if permissions.commaOperator then .sequence
  else .terminate

-- What is read of the inside of a group is no longer than the inside: all of it, what is behind its
-- blanks, and what is behind a colon or behind a level in there.
section Lengths

theorem length_inside_le (inside : List Char) : inside.length ≤ inside.length :=
  Nat.le_refl _

variable {inside rest : List Char} {c : Char}

theorem length_trimmed_le (h : trimStart inside = c :: rest) : (c :: rest).length ≤ inside.length :=
  h ▸ trimStart_length_le inside

theorem length_behind_colon_le (h : trimStart inside = c :: rest) : rest.length ≤ inside.length :=
  Nat.le_of_succ_le (length_trimmed_le h)

theorem length_behind_level_le (h : trimStart inside = c :: rest) (lower : LevelEnd) :
    ((c :: rest).drop ((c :: rest).length - lower.left + 1)).length ≤ inside.length := by
  have htrimmed := length_trimmed_le h
  rw [List.length_drop]
  omega

end Lengths

namespace Lexer

def fail (offset : Nat) (cause : LexCause) : Lexer α :=
  throw ⟨offset, cause⟩

-- Every level counts its offsets from its own start. The failure of a level that begins `start`
-- bytes into another is taken over into the offsets of that one.
def within (start : Nat) (run : Lexer α) : Lexer α :=
  EStateM.adaptExcept (LexError.rebase · start) run

-- Only so many groups may be open at once.
def enter (setup : Setup) (level : Level) (start : Nat) : Lexer Unit :=
  match setup.maxDepth with
  | some limit => if limit ≤ level.depth then fail start (.overflow .nesting limit) else return ()
  | none => return ()

section Groups

variable (maxTokens : Option Nat) (base : Nat)

-- Records a token that stands at an offset of the level, which begins `base` bytes into the whole
-- text. There may be one too many.
def push (offset : Nat) (text : List Char) (form : Form) : Lexer Unit := fun tokens =>
  match maxTokens.filter (· ≤ tokens.size) with
  | some limit => .error ⟨offset, .overflow .tokens limit⟩ tokens
  | none => .ok () (tokens.push ⟨base + offset, text, form⟩)

-- A dictionary must not stop in a key.
def endLevel (level : Level) (cur : Cursor) (left : Nat) : Lexer LevelEnd :=
  match cur.separators.items? with
  | none => fail cur.pos (.fault .missingValue)
  | some items => do
      if level.top then push maxTokens base cur.pos [] (.finish items)
      return ⟨items, cur.pos, left⟩

-- The argument of a text function is one string. It keeps its quotes if it is a literal.
def readVerbatim (pos : Nat) (inside : List Char) : Lexer Nat :=
  let body := trim inside
  let quoted := match Literal.scan body with
    | .found literal => literal.width = body.length
    | _ => false
  if body.isEmpty then return 0
  else do
    push maxTokens base (pos + byteLength (inside.takeWhile isBlank)) body (.string (!quoted))
    return 1

-- How the inside of a group is read as a level of its own, from some character on.
variable (inside : List Char)
  (nested : Separators → Bool → Nat → (text : List Char) → text.length ≤ inside.length →
    Lexer LevelEnd)

def readItems (separators : Separators) (pos : Nat) : Lexer Nat :=
  if inside.all isBlank then return 0
  else do
    let level ← nested separators false pos inside (length_inside_le inside)
    return level.items

-- The upper bound of a slice, if there is one.
def readUpper (pos : Nat) (text : List Char) (h : text.length ≤ inside.length) : Lexer Bool :=
  if text.all isBlank then return false
  else do
    let _ ← nested .sequence false pos text h
    return true

def readSubscript (pos : Nat) : Lexer Subscript :=
  let first := pos + byteLength (inside.takeWhile isBlank)
  match h : trimStart inside with
  | [] => fail first (.fault (.expected TokenKind.start.successors))
  | c :: rest =>
      if c = ':' then do
        push maxTokens base first [':'] .sliceMark
        let max ← readUpper inside nested (first + 1) rest (length_behind_colon_le h)
        return .slice false max
      else do
        let lower ← nested .sequence true first (c :: rest) (length_trimmed_le h)
        if lower.left = 0 then return .index
        else do
          let mark := first + lower.stop
          push maxTokens base mark [':'] .sliceMark
          let upper := (c :: rest).drop ((c :: rest).length - lower.left + 1)
          let max ← readUpper inside nested (mark + 1) upper
            (length_behind_level_le h lower)
          return .slice true max

def readInside (group : Group) (callee : Callee) (pos : Nat) : Lexer Closing :=
  match group with
  | .subExpr => do
      let _ ← nested .sequence false pos inside (length_inside_le inside)
      return .subExpr
  | .substArgs => do return .substArgs (← readItems inside nested (.items 1) pos)
  | .list => do return .list (← readItems inside nested (.items 1) pos)
  | .dict => do return .dict (← readItems inside nested (.pairs 0 true) pos)
  | .subscript => do return .subscript (← readSubscript maxTokens base inside nested pos)
  | .call => match callee with
      | .plain => do return .call (← readItems inside nested (.items 1) pos)
      | .textual => do return .call (← readVerbatim maxTokens base pos inside)
      -- The name of the bound variable is an argument too.
      | .binder => do return .call ((← readItems inside nested (.items 1) pos) + 1)

end Groups

-- Reads a level from the cursor to its end. Every token takes at least one character, and the
-- inside of a group is shorter than what holds it.
def readLevel (setup : Setup) (maxTokens : Option Nat) (base : Nat) (level : Level) (cur : Cursor)
    (text : List Char) : Lexer LevelEnd :=
  let pos := cur.pos + byteLength (text.takeWhile isSkipped)
  match h : text.dropWhile isSkipped with
  | [] =>
      let cur := { cur with pos }
      if cur.candidates.contains .finish then endLevel maxTokens base level cur 0
      else fail pos (.fault (.expected cur.candidates))
  | c :: rest =>
      let cur := { cur with pos }
      have hlen : rest.length < text.length := by
        have hsuffix : (text.dropWhile isSkipped).length ≤ text.length :=
          (List.dropWhile_suffix isSkipped).length_le
        rw [h, List.length_cons] at hsuffix
        omega
      match nextMove setup level cur (c :: rest) with
      | .error e => throw e
      | .ok .finish => endLevel maxTokens base level cur (rest.length + 1)
      | .ok (.token form extra next) => do
          let lexeme := c :: rest.take extra
          push maxTokens base pos lexeme form
          readLevel setup maxTokens base level
            { next with pos := pos + byteLength lexeme, state := form.kind } (rest.drop extra)
      | .ok (.binder stem extra) => do
          let word := c :: rest.take extra
          push maxTokens base pos (word.take stem) .name
          push maxTokens base (pos + byteLength (word.take stem)) (word.drop stem) (.string true)
          readLevel setup maxTokens base level
            { cur with pos := pos + byteLength word, state := .name, callee := .binder }
            (rest.drop extra)
      | .ok (.group group) =>
          match matching? (· = group.opener) (· = group.closer) (c :: rest) with
          | none => fail pos (.fault (.mismatchedBracket group.opener group.closer))
          | some before => do
              let inside := rest.take (before.length - 1)
              let close := pos + byteLength before
              push maxTokens base pos [group.opener] (.opening group)
              let closing ← readInside maxTokens base inside
                (fun separators stopAtColon start inner hinner => do
                  enter setup level start
                  within start (readLevel setup maxTokens (base + start)
                    ⟨false, stopAtColon, level.depth + 1⟩ (Cursor.start 0 separators) inner))
                group cur.callee (pos + 1)
              push maxTokens base close [group.closer] (.closing closing)
              readLevel setup maxTokens base level
                { cur with pos := close + 1, state := group.kind, callee := .plain }
                (rest.drop before.length)
termination_by text.length
decreasing_by
  · simp only [List.length_drop]; omega
  · simp only [List.length_drop]; omega
  · simp only [inside, List.length_take] at hinner; omega
  · simp only [List.length_drop]; omega

def readText (setup : Setup) (maxTokens : Option Nat) (text : List Char) : Lexer LevelEnd :=
  readLevel setup maxTokens 0 ⟨true, false, 0⟩ (Cursor.start 0 setup.permissions.separators) text

end Lexer

-- The tokens of a formula, what was counted at its top level, and the number of bytes read.
structure Tokenized where
  tokens : List Token
  items : Nat
  stop : Nat
deriving DecidableEq, Repr

def tokenize (setup : Setup) (maxTokens : Option Nat) (text : List Char) :
    Except LexError Tokenized :=
  match Lexer.readText setup maxTokens text #[] with
  | .ok level tokens => .ok ⟨tokens.toList, level.items, level.stop⟩
  | .error e _ => .error e

end FormulaCode
