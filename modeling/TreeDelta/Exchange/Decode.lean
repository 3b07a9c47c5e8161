import TreeDelta.Exchange.Error
import TreeDelta.Node

/-!
# From values to trees

A node is an object with a type and, optionally, a value, an id, the two ends of its stretch of
text, and children. The children are an object, whose keys become the keys of the branches, or an
array, whose positions do. A null child is a placeholder.

The children of an object stand in document order unless `childrenOrder` lists them; those it leaves
out follow in document order. Every child is decoded where it stands in the document, and the
results are then put in order, so the error that is reported is the first one in the order of the
tree and not of the document. A child that is listed twice would give two branches the same key: it
is refused when its second mention is reached.
-/

namespace TreeDelta.Exchange

open Json (Value)

/-- A field that may be absent or null and must hold a string otherwise. -/
def optionalString (trail : Trail) (fields : List (String × Value)) (field : Field) :
    Except DecodeError (Option String) :=
  match fields.lookup field.name with
  | none | some .null => .ok none
  | some (.string text) => .ok (some text)
  | some _ => .error (.invalidField trail field)

/-- A location as an array of line and column. -/
def location? : Value → Option Location
  | .array [line, column] => do
    let line ← Location.coordinate? line
    let column ← Location.coordinate? column
    return ⟨line, column⟩
  | _ => none

/-- A field that may be absent or null and must hold a location otherwise. -/
def optionalLocation (trail : Trail) (fields : List (String × Value)) (field : Field) :
    Except DecodeError (Option Location) :=
  match fields.lookup field.name with
  | none | some .null => .ok none
  | some value =>
    match location? value with
    | some location => .ok (some location)
    | none => .error (.invalidField trail field)

/-- The kind of a node: its type, which must be there and not be empty. -/
def requiredKind (trail : Trail) (fields : List (String × Value)) : Except DecodeError String :=
  match fields.lookup Field.type.name with
  | none | some .null => .error (.missingType trail)
  | some (.string kind) =>
    if kind = "" then .error (.violation trail .emptyKind) else .ok kind
  | some _ => .error (.invalidField trail .type)

/-- The node that the fields of an object describe, children aside. -/
def decodeFields (trail : Trail) (fields : List (String × Value)) : Except DecodeError Node := do
  let kind ← requiredKind trail fields
  let value? ← optionalString trail fields .value
  let id? ← optionalString trail fields .id
  let start? ← optionalLocation trail fields .sourceStart
  let stop? ← optionalLocation trail fields .sourceEnd
  return ⟨kind, value?, id?, start?, stop?⟩

/-- A child with its key, decoded or refused. -/
abbrev Candidate := String × Except DecodeError SyntaxTree

/-- What the field of the children holds. -/
inductive Candidates where
  /-- Nothing, or null. -/
  | none
  /-- Children whose order is given by an array. -/
  | listed (candidates : List Candidate)
  /-- Children in document order that `childrenOrder` may rearrange. -/
  | keyed (candidates : List Candidate)
  /-- Neither an object nor an array. -/
  | invalid

/-- The order that `childrenOrder` asks for: the children it lists and then the others. -/
def rearrange (trail : Trail) (candidates : List Candidate) (order : List Value) :
    Except DecodeError (List Candidate) := do
  let listed ← order.mapM fun
    | .string relation =>
      match candidates.lookup relation with
      | some child => Except.ok (relation, child)
      | none => .error (.unknownChild trail relation)
    | _ => .error (.invalidField trail .childrenOrder)
  let unlisted := candidates.filter fun candidate =>
    !listed.any fun chosen => chosen.1 = candidate.1
  return listed ++ unlisted

/-- The children of a node in the order of its branches. -/
def arrange (trail : Trail) (fields : List (String × Value)) :
    Candidates → Except DecodeError (List Candidate)
  | .none => .ok []
  | .listed candidates => .ok candidates
  | .invalid => .error (.invalidField trail .children)
  | .keyed candidates =>
    match fields.lookup Field.childrenOrder.name with
    | Option.none | some .null => .ok candidates
    | some (.array order) => rearrange trail candidates order
    | some _ => .error (.invalidField trail .childrenOrder)

/-- The branches of a node, from its children in order and the keys that are already taken. The
first child that was refused, or whose key is taken, decides. -/
def collect (trail : Trail) (taken : List String) :
    List Candidate → Except DecodeError (List (String × SyntaxTree))
  | [] => .ok []
  | (relation, child) :: rest => do
    let tree ← child
    if relation ∈ taken then .error (.violation trail (.relationInUse relation))
    else do
      let branches ← collect trail (relation :: taken) rest
      return (relation, tree) :: branches

/-- A child from its value and from that value decoded as a node: null is a placeholder. -/
def ofChild (value : Value) (decoded : Except DecodeError SyntaxTree) :
    Except DecodeError SyntaxTree :=
  match value with
  | .null => .ok (.leaf Node.placeholder)
  | _ => decoded

mutual

/-- Decode a node and everything below it. -/
def decodeAt (trail : Trail) : Value → Except DecodeError SyntaxTree
  | .object fields => do
    let top ← decodeFields trail fields
    let candidates ← arrange trail fields (candidatesAmong trail fields)
    let branches ← collect trail [] candidates
    return .node top branches
  | _ => .error (.notAnObject trail)

/-- The children among the fields of an object. -/
def candidatesAmong (trail : Trail) : List (String × Value) → Candidates
  | [] => .none
  | (key, value) :: rest =>
    if key = Field.children.name then candidatesOf trail value else candidatesAmong trail rest

/-- The children that the field of the children holds. -/
def candidatesOf (trail : Trail) : Value → Candidates
  | .null => .none
  | .array elements => .listed (decodeElements trail 0 elements)
  | .object entries => .keyed (decodeEntries trail entries)
  | _ => .invalid

/-- The children of an array from `index` on. -/
def decodeElements (trail : Trail) (index : Nat) : List Value → List Candidate
  | [] => []
  | child :: rest =>
    (toString index, ofChild child (decodeAt (trail ++ [toString index]) child))
      :: decodeElements trail (index + 1) rest

/-- The children of an object, in document order. -/
def decodeEntries (trail : Trail) : List (String × Value) → List Candidate
  | [] => []
  | (relation, child) :: rest =>
    (relation, ofChild child (decodeAt (trail ++ [relation]) child)) :: decodeEntries trail rest

end

/-- Decode a value as a tree. -/
def decode (value : Value) : Except DecodeError SyntaxTree := decodeAt [] value

/-- Read a text as a tree. -/
def parse (text : String) : Except ParseError SyntaxTree :=
  match Json.read text with
  | .error error => .error (.text error)
  | .ok value =>
    match decode value with
    | .error error => .error (.tree error)
    | .ok tree => .ok tree

end TreeDelta.Exchange
