import TreeDelta.Address
import TreeDelta.Text.Quoted

/-!
# Finding counterparts

Before two trees can be compared, their nodes must be paired. Nodes that carry the same id are
paired, provided that no tree repeats an id. Where ids are missing, pairs of post-order positions
are taken instead; they come from an alignment of the two trees, must lie within them, and a later
pair takes the place of an earlier one that shares a node with it.
-/

namespace TreeDelta

/-- Why two trees cannot be paired. -/
inductive ExtractError where
  /-- Two nodes of one tree carry the id. -/
  | duplicateId (id : String)
  /-- A pair of positions does not lie within trees of the given sizes. -/
  | pairOutOfRange (left right leftSize rightSize : Nat)
  deriving DecidableEq, Repr, Inhabited

/-- The message of an extraction error. -/
def ExtractError.message : ExtractError → String
  | duplicateId id => "duplicate id " ++ Text.quoted id ++ " in tree"
  | pairOutOfRange left right leftSize rightSize =>
    "alignment pair (" ++ toString left ++ ", " ++ toString right
      ++ ") out of range for trees of " ++ toString leftSize ++ " and " ++ toString rightSize
      ++ " nodes"

namespace Correspondence

/-- The ids of a list of places with their places, or the first place that repeats an id. -/
def indexPlaces (seen : List String) :
    List (Place Node) → Except ExtractError (List (String × Place Node))
  | [] => .ok []
  | place :: rest =>
    match place.label.id? with
    | none => indexPlaces seen rest
    | some id =>
      if id ∈ seen then .error (.duplicateId id)
      else (indexPlaces (id :: seen) rest).map ((id, place) :: ·)

/-- The ids of the tree below `root` with their places, in pre-order. -/
def idIndex (root : Place Node) : Except ExtractError (List (String × Place Node)) :=
  indexPlaces [] root.preorder

/-- Pair the nodes that carry the same id. -/
def byId (left right : Place Node) : Except ExtractError Correspondence := do
  let leftIds ← idIndex left
  let rightIds ← idIndex right
  return Pairing.ofList (leftIds.filterMap fun (id, place) =>
    (rightIds.lookup id).map fun counterpart => (place, counterpart))

/-- Look up a list of pairs of positions in two lists of places. -/
def lookUpPairs (left right : List (Place Node)) (pairs : List (Nat × Nat)) :
    Except ExtractError (List (Place Node × Place Node)) :=
  pairs.mapM fun (leftIndex, rightIndex) =>
    match left[leftIndex]?, right[rightIndex]? with
    | some leftPlace, some rightPlace => .ok (leftPlace, rightPlace)
    | _, _ => .error (.pairOutOfRange leftIndex rightIndex left.length right.length)

/-- Pair the nodes at the given pairs of post-order positions. -/
def byPostorder (left right : Place Node) (pairs : List (Nat × Nat)) :
    Except ExtractError Correspondence :=
  (lookUpPairs left.postorder right.postorder pairs).map Pairing.ofList

end Correspondence

end TreeDelta
