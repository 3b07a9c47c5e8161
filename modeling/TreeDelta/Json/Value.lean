/-!
# Data values of the exchange text

A value is null, a truth value, a number, a string, a list of values or an object. An object is a
list of fields in the order in which they were written: children of a node may depend on that
order, so it is part of the value and not a detail of its text.

A number keeps apart what a reader may count with and what it may only measure with. An integer is
a numeral without point and exponent whose value fits into 64 bits; every other numeral stays a
decimal in its written form, which is turned into a floating-point number only where one is needed.
-/

namespace TreeDelta.Json

/-- The exponent of a numeral: its sign and its digits. -/
structure Exponent where
  negative : Bool
  digits : List Char
  deriving DecidableEq, Repr, Inhabited

/-- A number in its written form. `fraction` is empty when the numeral has no point. -/
structure Numeral where
  negative : Bool
  whole : List Char
  fraction : List Char
  exponent : Option Exponent
  deriving DecidableEq, Repr, Inhabited

/-- A number is an integer of at most 64 bits or a numeral kept as it was written. -/
inductive Number where
  | integer (value : Int)
  | decimal (numeral : Numeral)
  deriving DecidableEq, Repr, Inhabited

/-- A number as a counting number, if it is one. -/
def Number.natural? : Number → Option Nat
  | .integer (.ofNat count) => some count
  | _ => none

/-- A value of the exchange text. Fields of an object stand in document order. -/
inductive Value where
  | null
  | bool (flag : Bool)
  | number (number : Number)
  | string (text : String)
  | array (elements : List Value)
  | object (fields : List (String × Value))
  deriving Inhabited

namespace Value

/-- A counting number as a value. -/
def natural (count : Nat) : Value := .number (.integer count)

/-- The field of an object named `key`; a value that is no object has no fields. -/
def field? (key : String) : Value → Option Value
  | .object fields => fields.lookup key
  | _ => none

end Value

/-- Give `key` the value `value`. A key that is already there keeps its place and loses its old
value; a new key goes to the end. -/
def putField (key : String) (value : Value) : List (String × Value) → List (String × Value)
  | [] => [(key, value)]
  | (present, old) :: rest =>
    if present = key then (key, value) :: rest else (present, old) :: putField key value rest

/-- A new key is appended. -/
theorem putField_of_not_mem {key : String} {value : Value} {fields : List (String × Value)}
    (fresh : key ∉ fields.map Prod.fst) : putField key value fields = fields ++ [(key, value)] := by
  induction fields with
  | nil => rfl
  | cons entry rest inductionHypothesis =>
    obtain ⟨present, old⟩ := entry
    simp only [List.map_cons, List.mem_cons, not_or] at fresh
    simp [putField, Ne.symm fresh.1, inductionHypothesis fresh.2]

end TreeDelta.Json
