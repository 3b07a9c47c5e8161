import TreeDelta.Text.Unmarked

/-!
# Quoted texts

A message quotes a text so that its exact characters can be read off. The quote and the backslash
are escaped, four control characters have a letter or digit of their own, and every other character
without a mark of its own is written by its code point in hexadecimal.
-/

namespace TreeDelta.Text

/-- A character by its code point in hexadecimal. -/
def byCodePoint (c : Char) : List Char :=
  ['\\', 'u', '{'] ++ Nat.toDigits 16 c.toNat ++ ['}']

/-- A character inside quotes. -/
def quoteChar (c : Char) : List Char :=
  if c = '"' then ['\\', '"']
  else if c = '\\' then ['\\', '\\']
  else if c = '\n' then ['\\', 'n']
  else if c = '\r' then ['\\', 'r']
  else if c = '\t' then ['\\', 't']
  else if c = '\x00' then ['\\', '0']
  else if isUnmarked c then byCodePoint c
  else [c]

/-- A text between quotes. -/
def quoted (text : String) : String :=
  String.ofList ('"' :: (text.toList.flatMap quoteChar ++ ['"']))

end TreeDelta.Text
