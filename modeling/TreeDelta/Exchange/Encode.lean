import TreeDelta.Exchange.Decode
import TreeDelta.Json.Writer

/-!
# From trees to values

A node is written with what it carries and nothing else: type, value, id, on request the two ends of
its stretch of text, and its children with their order, if it has any. The order is always written,
although the object of the children shows it too, so that no reader has to keep the order of fields.

A child that is a bare placeholder is written as null. A placeholder that carries anything, and the
top of a tree in any case, is written as an object.
-/

namespace TreeDelta.Exchange

open Json (Value)

/-- How a tree is written. -/
structure WriteOptions where
  /-- Whether the ends of the stretches of text are written. -/
  spans : Bool
  /-- Whether the text is indented. -/
  pretty : Bool
  deriving DecidableEq, Repr, Inhabited

/-- Compact text without ends. -/
def WriteOptions.plain : WriteOptions := ⟨false, false⟩

/-- A location as an array of line and column. -/
def encodeLocation (location : Location) : Value :=
  .array [.natural location.line, .natural location.column]

/-- A field that is written only if there is something to write. -/
def presentField (field : Field) (value? : Option Value) : List (String × Value) :=
  match value? with
  | none => []
  | some value => [(field.name, value)]

/-- The fields of a node, children aside. -/
def encodeFields (spans : Bool) (node : Node) : List (String × Value) :=
  presentField .type (some (.string node.kind))
    ++ presentField .value (node.value?.map .string)
    ++ presentField .id (node.id?.map .string)
    ++ presentField .sourceStart (if spans then node.start?.map encodeLocation else none)
    ++ presentField .sourceEnd (if spans then node.stop?.map encodeLocation else none)

/-- Whether a tree is a placeholder that carries nothing. -/
def isBarePlaceholder (tree : SyntaxTree) : Bool :=
  tree.label = Node.placeholder && tree.branches.isEmpty

mutual

/-- The value of a tree. -/
def encode (spans : Bool) : SyntaxTree → Value
  | .node top branches =>
    .object (encodeFields spans top ++
      if branches.isEmpty then []
      else
        [(Field.children.name, .object (encodeBranches spans branches)),
          (Field.childrenOrder.name, .array (branches.map fun branch => .string branch.1))])

/-- The values of a list of branches under their keys. -/
def encodeBranches (spans : Bool) : List (String × SyntaxTree) → List (String × Value)
  | [] => []
  | (relation, child) :: rest =>
    (relation, if isBarePlaceholder child then .null else encode spans child)
      :: encodeBranches spans rest

end

/-- The text of a tree. -/
def write (options : WriteOptions) (tree : SyntaxTree) : String :=
  Json.write options.pretty (encode options.spans tree)

end TreeDelta.Exchange
