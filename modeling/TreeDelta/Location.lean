import TreeDelta.Json.Value

/-!
# Locations in a text

A location is a line, counted from one, and a column, counted from zero. Locations are ordered by
line and then by column. The default location has both numbers zero: it stands before every
location of a text.
-/

namespace TreeDelta

/-- A line and a column. -/
structure Location where
  line : Nat
  column : Nat
  deriving DecidableEq, Repr, Inhabited

namespace Location

/-- Order by line, then by column. -/
def compare (first second : Location) : Ordering :=
  (Ord.compare first.line second.line).then (Ord.compare first.column second.column)

/-- Whether a location stands before another or at the same place. -/
def notAfter (first second : Location) : Bool := (first.compare second).isLE

/-- The location that stands before every other. -/
def origin : Location := ⟨0, 0⟩

/-- The earlier of two locations. -/
def earlier (first second : Location) : Location :=
  if first.notAfter second then first else second

/-- The earliest of a list of locations, absent for the empty list. -/
def earliest? : List Location → Option Location
  | [] => none
  | first :: rest => some (rest.foldl earlier first)

/-- The text of a location. -/
def text (location : Location) : String :=
  toString location.line ++ ":" ++ toString location.column

/-- The first number that is no line and no column. -/
def bound : Nat := Nat.pow 2 32

/-- A location as a value of the exchange text, with its numbers under their names. -/
def toValue (location : Location) : Json.Value :=
  .object [("line", .natural location.line), ("column", .natural location.column)]

/-- A number of a location: a counting number below the bound. -/
def coordinate? : Json.Value → Option Nat
  | .number number => number.natural?.filter (· < bound)
  | _ => none

/-- The location that a value with its numbers under their names stands for. -/
def ofValue? (value : Json.Value) : Option Location := do
  let line ← (value.field? "line").bind coordinate?
  let column ← (value.field? "column").bind coordinate?
  return ⟨line, column⟩

end Location

end TreeDelta
