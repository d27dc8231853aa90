import FormulaCode.Token.Lexer

namespace FormulaCode

-- The tokenizer once more, without levels that count their own offsets and without a limit to the
-- tokens. A run is the tokens that it records and how it ends. The tokens stay when it fails.
structure Scan (α : Type) where
  tokens : List Token
  outcome : Except LexError α

namespace Scan

def emit (start : Nat) (text : List Char) (form : Form) : Scan Unit :=
  ⟨[⟨start, text, form⟩], .ok ()⟩

def fail (offset : Nat) (cause : LexCause) : Scan α :=
  ⟨[], .error ⟨offset, cause⟩⟩

def ofExcept (outcome : Except LexError α) : Scan α :=
  ⟨[], outcome⟩

def bind (first : Scan α) (next : α → Scan β) : Scan β :=
  match first.outcome with
  | .error e => ⟨first.tokens, .error e⟩
  | .ok a =>
      let second := next a
      ⟨first.tokens ++ second.tokens, second.outcome⟩

instance : Monad Scan where
  pure a := ⟨[], .ok a⟩
  bind := bind

end Scan

-- A dictionary must not stop in a key.
def endLevel (level : Level) (cur : Cursor) (left : Nat) : Scan LevelEnd :=
  match cur.separators.items? with
  | none => Scan.fail cur.pos (.fault .missingValue)
  | some items => do
      if level.top then Scan.emit cur.pos [] (.finish items)
      return ⟨items, cur.pos, left⟩

-- The argument of a text function is one string. It keeps its quotes if it is a literal.
def scanVerbatim (pos : Nat) (inside : List Char) : Scan Nat :=
  let body := trim inside
  let quoted := match Literal.scan body with
    | .found literal => literal.width = body.length
    | _ => false
  if body.isEmpty then return 0
  else do
    Scan.emit (pos + byteLength (inside.takeWhile isBlank)) body (.string (!quoted))
    return 1

section Groups

-- How the inside of a group is read as a level of its own, from some character on.
variable (inside : List Char)
  (nested : Separators → Bool → Nat → (text : List Char) → text.length ≤ inside.length →
    Scan LevelEnd)

def scanItems (separators : Separators) (pos : Nat) : Scan Nat :=
  if inside.all isBlank then return 0
  else do
    let level ← nested separators false pos inside (length_inside_le inside)
    return level.items

-- The upper bound of a slice, if there is one.
def scanUpper (pos : Nat) (text : List Char) (h : text.length ≤ inside.length) : Scan Bool :=
  if text.all isBlank then return false
  else do
    let _ ← nested .sequence false pos text h
    return true

def scanSubscript (pos : Nat) : Scan Subscript :=
  let first := pos + byteLength (inside.takeWhile isBlank)
  match h : trimStart inside with
  | [] => Scan.fail first (.fault (.expected TokenKind.start.successors))
  | c :: rest =>
      if c = ':' then do
        Scan.emit first [':'] .sliceMark
        let max ← scanUpper inside nested (first + 1) rest (length_behind_colon_le h)
        return .slice false max
      else do
        let lower ← nested .sequence true first (c :: rest) (length_trimmed_le h)
        if lower.left = 0 then return .index
        else do
          Scan.emit lower.stop [':'] .sliceMark
          let upper := (c :: rest).drop ((c :: rest).length - lower.left + 1)
          let max ← scanUpper inside nested (lower.stop + 1) upper
            (length_behind_level_le h lower)
          return .slice true max

def scanInside (group : Group) (callee : Callee) (pos : Nat) : Scan Closing :=
  match group with
  | .subExpr => do
      let _ ← nested .sequence false pos inside (length_inside_le inside)
      return .subExpr
  | .substArgs => do return .substArgs (← scanItems inside nested (.items 1) pos)
  | .list => do return .list (← scanItems inside nested (.items 1) pos)
  | .dict => do return .dict (← scanItems inside nested (.pairs 0 true) pos)
  | .subscript => do return .subscript (← scanSubscript inside nested pos)
  | .call => match callee with
      | .plain => do return .call (← scanItems inside nested (.items 1) pos)
      | .textual => do return .call (← scanVerbatim pos inside)
      -- The name of the bound variable is an argument too.
      | .binder => do return .call ((← scanItems inside nested (.items 1) pos) + 1)

end Groups

-- Only so many groups may be open at once.
def enter (setup : Setup) (level : Level) (pos : Nat) : Scan Unit :=
  match setup.maxDepth with
  | some limit => if limit ≤ level.depth then Scan.fail pos (.overflow .nesting limit) else return ()
  | none => return ()

-- Reads a level from the cursor to its end. Every token takes at least one character, and the
-- inside of a group is shorter than what holds it.
def scanLevel (setup : Setup) (level : Level) (cur : Cursor) (text : List Char) : Scan LevelEnd :=
  let pos := cur.pos + byteLength (text.takeWhile isSkipped)
  match h : text.dropWhile isSkipped with
  | [] =>
      let cur := { cur with pos }
      if cur.candidates.contains .finish then endLevel level cur 0
      else Scan.fail pos (.fault (.expected cur.candidates))
  | c :: rest =>
      let cur := { cur with pos }
      have hlen : rest.length < text.length := by
        have hsuffix : (text.dropWhile isSkipped).length ≤ text.length :=
          (List.dropWhile_suffix isSkipped).length_le
        rw [h, List.length_cons] at hsuffix
        omega
      match nextMove setup level cur (c :: rest) with
      | .error e => Scan.ofExcept (.error e)
      | .ok .finish => endLevel level cur (rest.length + 1)
      | .ok (.token form extra next) => do
          let lexeme := c :: rest.take extra
          Scan.emit pos lexeme form
          scanLevel setup level { next with pos := pos + byteLength lexeme, state := form.kind }
            (rest.drop extra)
      | .ok (.binder stem extra) => do
          let word := c :: rest.take extra
          Scan.emit pos (word.take stem) .name
          Scan.emit (pos + byteLength (word.take stem)) (word.drop stem) (.string true)
          scanLevel setup level
            { cur with pos := pos + byteLength word, state := .name, callee := .binder }
            (rest.drop extra)
      | .ok (.group group) =>
          match matching? (· = group.opener) (· = group.closer) (c :: rest) with
          | none => Scan.fail pos (.fault (.mismatchedBracket group.opener group.closer))
          | some before => do
              let inside := rest.take (before.length - 1)
              let close := pos + byteLength before
              Scan.emit pos [group.opener] (.opening group)
              let closing ← scanInside inside
                (fun separators stopAtColon start inner hinner => do
                  enter setup level start
                  scanLevel setup ⟨false, stopAtColon, level.depth + 1⟩
                    (Cursor.start start separators) inner)
                group cur.callee (pos + 1)
              Scan.emit close [group.closer] (.closing closing)
              scanLevel setup level
                { cur with pos := close + 1, state := group.kind, callee := .plain }
                (rest.drop before.length)
termination_by text.length
decreasing_by
  · simp only [List.length_drop]; omega
  · simp only [List.length_drop]; omega
  · simp only [inside, List.length_take] at hinner; omega
  · simp only [List.length_drop]; omega

end FormulaCode
