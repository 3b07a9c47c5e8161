import TreeDelta.Json.Reader
import TreeDelta.Violation

/-!
# What can be wrong with an exchanged tree

A text may fail to be a value at all, and a value may fail to be a tree. In the second case the
error names the value at fault by the keys of the children that lead to it, and the field at fault
where one is.
-/

namespace TreeDelta.Exchange

/-- The fields of a node object that have a form of their own. -/
inductive Field where
  | type
  | value
  | id
  | sourceStart
  | sourceEnd
  | children
  | childrenOrder
  deriving DecidableEq, Repr, Inhabited

namespace Field

/-- The key of a field. -/
def name : Field → String
  | type => "type"
  | value => "value"
  | id => "id"
  | sourceStart => "sourceStart"
  | sourceEnd => "sourceEnd"
  | children => "children"
  | childrenOrder => "childrenOrder"

/-- What a field must hold, in words. -/
def expected : Field → String
  | type | value | id => "a string"
  | sourceStart | sourceEnd => "a [line, column] pair"
  | children => "an object or an array"
  | childrenOrder => "an array of strings"

end Field

/-- The keys of the children that lead from the value to one inside it. -/
abbrev Trail := List String

/-- The text of a trail: a slash for the value itself. -/
def Trail.text (trail : Trail) : String :=
  match trail with
  | [] => "/"
  | keys => String.join (keys.map fun key => "/children/" ++ key)

/-- Why a value is no tree. -/
inductive DecodeError where
  /-- A node must be an object. -/
  | notAnObject (trail : Trail)
  /-- A node must have a type. -/
  | missingType (trail : Trail)
  /-- A field holds something of the wrong form. -/
  | invalidField (trail : Trail) (field : Field)
  /-- The order of the children names one that is not there. -/
  | unknownChild (trail : Trail) (relation : String)
  /-- A rule of trees is broken. -/
  | violation (trail : Trail) (broken : Violation)
  deriving DecidableEq, Repr, Inhabited

/-- The message of a decoding error. -/
def DecodeError.message : DecodeError → String
  | notAnObject trail => "expected a node object at " ++ Trail.text trail
  | missingType trail => "node at " ++ Trail.text trail ++ " is missing " ++ Text.quoted "type"
  | invalidField trail field =>
    "field " ++ Text.quoted field.name ++ " at " ++ Trail.text trail ++ " must be "
      ++ field.expected
  | unknownChild trail relation =>
    "childrenOrder at " ++ Trail.text trail ++ " names unknown child " ++ Text.quoted relation
  | violation trail broken => "at " ++ Trail.text trail ++ ": " ++ broken.message

/-- Why a text is no tree. -/
inductive ParseError where
  | text (error : Json.ReadError)
  | tree (error : DecodeError)
  deriving DecidableEq, Repr, Inhabited

end TreeDelta.Exchange
