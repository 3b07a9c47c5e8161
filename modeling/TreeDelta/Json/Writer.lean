import TreeDelta.Json.Value

/-!
# Writing the exchange text

A value has two written forms. The compact form puts nothing between its symbols. The indented form
gives every element and every field a line of its own, two blanks deeper than its container, and a
blank after the colon of a field; an empty container stays on its line in both.

In a string only the quote, the backslash and the control characters below U+0020 are escaped. Five
of the control characters have a letter of their own, the others are written by number.
-/

namespace TreeDelta.Json

/-- The lower-case hexadecimal digit of a number below sixteen. -/
def hexDigit (value : Nat) : Char :=
  if value < 10 then Char.ofNat ('0'.toNat + value) else Char.ofNat ('a'.toNat + (value - 10))

/-- A character inside a string. -/
def escapeChar (c : Char) : List Char :=
  if c = '"' then ['\\', '"']
  else if c = '\\' then ['\\', '\\']
  else if c = '\x08' then ['\\', 'b']
  else if c = '\x0c' then ['\\', 'f']
  else if c = '\n' then ['\\', 'n']
  else if c = '\r' then ['\\', 'r']
  else if c = '\t' then ['\\', 't']
  else if c.toNat < 0x20 then
    ['\\', 'u', '0', '0', hexDigit (c.toNat / 16), hexDigit (c.toNat % 16)]
  else [c]

/-- A string between quotes. -/
def writeString (text : String) : List Char := '"' :: (text.toList.flatMap escapeChar ++ ['"'])

/-- The written form of a numeral. -/
def writeNumeral (numeral : Numeral) : List Char :=
  (if numeral.negative then ['-'] else [])
    ++ numeral.whole
    ++ (if numeral.fraction.isEmpty then [] else '.' :: numeral.fraction)
    ++ match numeral.exponent with
      | none => []
      | some exponent => 'e' :: (if exponent.negative then ['-'] else []) ++ exponent.digits

/-- The written form of a number. -/
def writeNumber : Number → List Char
  | .integer value => (toString value).toList
  | .decimal numeral => writeNumeral numeral

mutual

/-- The compact form of a value. -/
def compact : Value → List Char
  | .null => ['n', 'u', 'l', 'l']
  | .bool true => ['t', 'r', 'u', 'e']
  | .bool false => ['f', 'a', 'l', 's', 'e']
  | .number number => writeNumber number
  | .string text => writeString text
  | .array [] => ['[', ']']
  | .array (first :: rest) => '[' :: (compact first ++ compactElements rest ++ [']'])
  | .object [] => ['{', '}']
  | .object ((key, value) :: rest) =>
    '{' :: (writeString key ++ ':' :: compact value ++ compactFields rest ++ ['}'])

/-- The further elements of an array, each behind a comma. -/
def compactElements : List Value → List Char
  | [] => []
  | value :: rest => ',' :: compact value ++ compactElements rest

/-- The further fields of an object, each behind a comma. -/
def compactFields : List (String × Value) → List Char
  | [] => []
  | (key, value) :: rest => ',' :: writeString key ++ ':' :: compact value ++ compactFields rest

end

/-- The beginning of a line inside `depth` containers. -/
def lineStart (depth : Nat) : List Char := '\n' :: List.replicate (2 * depth) ' '

mutual

/-- The indented form of a value inside `depth` containers. -/
def indented (depth : Nat) : Value → List Char
  | .null => ['n', 'u', 'l', 'l']
  | .bool true => ['t', 'r', 'u', 'e']
  | .bool false => ['f', 'a', 'l', 's', 'e']
  | .number number => writeNumber number
  | .string text => writeString text
  | .array [] => ['[', ']']
  | .array (first :: rest) =>
    '[' :: (lineStart (depth + 1) ++ indented (depth + 1) first
      ++ indentedElements (depth + 1) rest ++ lineStart depth ++ [']'])
  | .object [] => ['{', '}']
  | .object ((key, value) :: rest) =>
    '{' :: (lineStart (depth + 1) ++ writeString key ++ ':' :: ' ' :: indented (depth + 1) value
      ++ indentedFields (depth + 1) rest ++ lineStart depth ++ ['}'])

/-- The further elements of an array, each behind a comma and on a line of its own. -/
def indentedElements (depth : Nat) : List Value → List Char
  | [] => []
  | value :: rest =>
    ',' :: lineStart depth ++ indented depth value ++ indentedElements depth rest

/-- The further fields of an object, each behind a comma and on a line of its own. -/
def indentedFields (depth : Nat) : List (String × Value) → List Char
  | [] => []
  | (key, value) :: rest =>
    ',' :: lineStart depth ++ writeString key ++ ':' :: ' ' :: indented depth value
      ++ indentedFields depth rest

end

/-- The written form of a value: indented or compact. -/
def write (pretty : Bool) (value : Value) : String :=
  String.ofList (if pretty then indented 0 value else compact value)

end TreeDelta.Json
