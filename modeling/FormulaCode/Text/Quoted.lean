import FormulaCode.Text.Shown

namespace FormulaCode

-- The form of one character inside quotes. A character that has no form of its own and is not
-- shown as itself is written by its code point in lower-case hexadecimal, between braces.
def quoteChar (c : Char) : List Char :=
  if c = '"' then ['\\', '"']
  else if c = '\\' then ['\\', '\\']
  else if c = '\n' then ['\\', 'n']
  else if c = '\r' then ['\\', 'r']
  else if c = '\t' then ['\\', 't']
  else if c = '\x00' then ['\\', '0']
  else if isShown c then [c]
  else '\\' :: 'u' :: '\x7b' :: Nat.toDigits 16 c.toNat ++ ['\x7d']

def quote (text : List Char) : List Char :=
  '"' :: text.flatMap quoteChar ++ ['"']

def quoted (text : String) : String :=
  String.ofList (quote text.toList)

end FormulaCode
