import FormulaCode.Text.Bytes

namespace FormulaCode.Wire

-- Why bytes are no written form.
inductive WireError where
  | endOfBuffer
  | badVarint
  | badBool
  | badText
  | badOption
  | badIndex
deriving DecidableEq, Repr

def WireError.message : WireError → String
  | endOfBuffer => "Hit the end of buffer, expected more data"
  | badVarint => "Found a varint that didn't terminate. Is the usize too big for this platform?"
  | badBool => "Found a bool that wasn't 0 or 1"
  | badText => "Tried to parse invalid utf-8"
  | badOption => "Found an Option discriminant that wasn't 0 or 1"
  | badIndex => "Serde Deserialization Error"

-- Takes a value off the front of some bytes.
abbrev Reader := StateT (List UInt8) (Except WireError)

def readByte : Reader UInt8 := fun
  | [] => .error .endOfBuffer
  | byte :: rest => .ok (byte, rest)

def readBytes (count : Nat) : Reader (List UInt8) := fun bytes =>
  if bytes.length < count then .error .endOfBuffer
  else .ok (bytes.take count, bytes.drop count)

def readBool : Reader Bool := do
  match ← readByte with
  | 0 => return false
  | 1 => return true
  | _ => throw .badBool

def writeBool (b : Bool) : List UInt8 :=
  [if b then 1 else 0]

def readOption (read : Reader α) : Reader (Option α) := do
  match ← readByte with
  | 0 => return none
  | 1 => return some (← read)
  | _ => throw .badOption

def writeOption (write : α → List UInt8) : Option α → List UInt8
  | none => [0]
  | some a => 1 :: write a

def readMany (read : Reader α) : Nat → Reader (List α)
  | 0 => return []
  | count + 1 => do
      let first ← read
      return first :: (← readMany read count)

end FormulaCode.Wire
