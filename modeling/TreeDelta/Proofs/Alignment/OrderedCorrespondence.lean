import TreeDelta.Extraction
import TreeDelta.Proofs.Alignment.KeptPairs
import TreeDelta.Proofs.Pairing

/-!
# Correspondences of alignments

The pairs that an alignment keeps lie within the two trees, never share a node, and keep the order
of nodes and who stands above whom. So they can be looked up, and putting them one after the other
takes no node out of an earlier pair: the edit script of an alignment exists for all trees, whatever
ids they carry.
-/

namespace TreeDelta

namespace Correspondence

/-- The places at a pair of positions. -/
def placesAt (left right : Place Node) (pair : Nat × Nat) : Place Node × Place Node :=
  (left.postorder[pair.1]!, right.postorder[pair.2]!)

/-- The positions of a pair lie within the two trees. -/
def Within (left right : SyntaxTree) (pair : Nat × Nat) : Prop :=
  pair.1 < left.size ∧ pair.2 < right.size

variable {left right : Place Node} {pairs : List (Nat × Nat)}

/-- Pairs of positions within the two trees can be looked up. -/
theorem look_up_within (within : ∀ pair ∈ pairs, Within left.tree right.tree pair) :
    lookUpPairs left.postorder right.postorder pairs = .ok (pairs.map (placesAt left right)) := by
  induction pairs with
  | nil => rfl
  | cons pair rest inductionHypothesis =>
    obtain ⟨leftInside, rightInside⟩ := within pair List.mem_cons_self
    have later := inductionHypothesis fun other member =>
      within other (List.mem_cons_of_mem pair member)
    rw [lookUpPairs] at later ⊢
    rw [List.mapM_cons, later]
    simp [placesAt, Place.postorder_length, leftInside, rightInside]
    rfl

/-- Different positions in a tree lead to different places. -/
theorem places_differ (place : Place Node) (early late : Nat) (before : early < late)
    (inside : late < place.tree.size) :
    (place.postorder[late]! == place.postorder[early]!) = false := by
  have length := place.postorder_length
  have differ := List.pairwise_iff_getElem.mp (Place.postorder_paths_differ place) early late
    (by omega) (by omega) before
  have apart : (place.postorder[late].path == place.postorder[early].path) = false :=
    beq_eq_false_iff_ne.mpr differ.symm
  rw [getElem!_pos place.postorder late (by omega), getElem!_pos place.postorder early (by omega)]
  exact apart

/-- Pairs of positions that ascend on both sides lead to pairs of places without common members. -/
theorem ascending_apart (within : ∀ pair ∈ pairs, Within left.tree right.tree pair)
    (ascending : pairs.Pairwise fun early late => early.1 < late.1 ∧ early.2 < late.2) :
    Pairing.Apart (pairs.map (placesAt left right)) := by
  constructor
  · rw [List.pairwise_map]
    apply ascending.imp_of_mem
    intro early late _ lateMember before
    exact places_differ left early.1 late.1 before.1 (within late lateMember).1
  · rw [List.pairwise_map]
    apply ascending.imp_of_mem
    intro early late _ lateMember before
    exact places_differ right early.2 late.2 before.2 (within late lateMember).2

/-- Pairs of positions that lie within two trees and ascend on both sides are a correspondence, and
none of them is evicted. -/
theorem by_postorder_ascending (within : ∀ pair ∈ pairs, Within left.tree right.tree pair)
    (ascending : pairs.Pairwise fun early late => early.1 < late.1 ∧ early.2 < late.2) :
    byPostorder left right pairs = .ok (Pairing.ofList (pairs.map (placesAt left right))) ∧
      Pairing.EvictsNothing (pairs.map (placesAt left right)) ∧
      (Pairing.ofList (pairs.map (placesAt left right))).pairs =
        (pairs.map (placesAt left right)).reverse := by
  have apart := ascending_apart within ascending
  refine ⟨?_, Pairing.apart_evicts_nothing _ apart, ?_⟩
  · rw [byPostorder, look_up_within within]
    rfl
  · rw [Pairing.of_list_apart _ apart]
    rfl

end Correspondence

namespace Alignment

/-- The pairs lie within the two trees, ascend on both sides, and keep the order of nodes and who
stands above whom. -/
structure OrderedPairs (left right : SyntaxTree) (pairs : List (Nat × Nat)) : Prop where
  within : ∀ pair ∈ pairs, pair.1 < left.size ∧ pair.2 < right.size
  order : ∀ pair ∈ pairs, ∀ other ∈ pairs, pair.1 < other.1 ↔ pair.2 < other.2
  oneToOne : ∀ pair ∈ pairs, ∀ other ∈ pairs, pair.1 = other.1 ↔ pair.2 = other.2
  ancestors : ∀ pair ∈ pairs, ∀ other ∈ pairs,
    left.Above pair.1 other.1 ↔ right.Above pair.2 other.2
  ascending : pairs.Pairwise fun early late => early.1 < late.1 ∧ early.2 < late.2

/-- On every exact scale, the pairs that an alignment keeps are an ordered mapping of the trees. -/
theorem correspondence_ordered {C : Type} [AddCommGroup C] [LinearOrder C] [CostScale C]
    [CostScale.Exact C] (cost : CostModel C) (left right : SyntaxTree) :
    OrderedPairs left right (correspondence cost left right) := by
  have mapping := correspondence_mapping cost left right
  obtain ⟨fits, ascending⟩ := correspondence_fits cost left right
  have listed (pair : Nat × Nat) (member : pair ∈ correspondence cost left right) :
      pair ∈ (correspondence cost left right).toFinset := List.mem_toFinset.mpr member
  refine ⟨?_, ?_, ?_, ?_, ascending⟩
  · intro pair member
    exact ⟨Finset.mem_range.mp (fits.left_mem pair (listed pair member)),
      Finset.mem_range.mp (fits.right_mem pair (listed pair member))⟩
  · intro pair member other otherMember
    exact mapping.order pair (listed pair member) other (listed other otherMember)
  · intro pair member other otherMember
    exact mapping.oneToOne pair (listed pair member) other (listed other otherMember)
  · intro pair member other otherMember
    exact mapping.ancestors pair (listed pair member) other (listed other otherMember)

/-- Whatever the costs of the operations and the ids of the nodes are: an alignment comes to an end,
the pairs that it keeps are an ordered mapping of the two trees, they are a correspondence without
any of them being evicted, and the edit script of the alignment exists.

The outcome gives an ordered mapping. Sorted by their left numbers, its pairs ascend on both sides,
so no node is paired twice and accepting them evicts none. -/
theorem correspondence_never_evicts (cost : CostModel Rat) (left right : Place Node) :
    (∃ outcome, (Problem.ofTrees left.tree right.tree cost).outcome? = some outcome ∧
      (correspondence cost left.tree right.tree).Perm outcome.kept) ∧
    OrderedPairs left.tree right.tree (correspondence cost left.tree right.tree) ∧
    (∃ places, Correspondence.byPostorder left right (correspondence cost left.tree right.tree) =
        .ok (Pairing.ofList places) ∧
      places = (correspondence cost left.tree right.tree).map
        (Correspondence.placesAt left right) ∧
      Pairing.EvictsNothing places ∧ (Pairing.ofList places).pairs = places.reverse) ∧
    ∃ script, Extraction.aligned (correspondence cost) left right = .ok script := by
  obtain ⟨outcome, found, -⟩ := exists_whole_outcome cost left.tree right.tree
  have listed : correspondence cost left.tree right.tree = outcome.kept.mergeSort pairNotAfter := by
    simp [correspondence, found]
  have ordered := correspondence_ordered cost left.tree right.tree
  obtain ⟨accepted, nothing, exactly⟩ :=
    Correspondence.by_postorder_ascending ordered.within ordered.ascending
  refine ⟨⟨outcome, found, ?_⟩, ordered, ⟨_, accepted, rfl, nothing, exactly⟩, ?_⟩
  · rw [listed]
    exact List.mergeSort_perm _ _
  · exact ⟨_, by rw [Extraction.aligned, accepted]; rfl⟩

end Alignment

end TreeDelta
