import TreeDelta.Proofs.AddressResolution
import TreeDelta.Proofs.SlotDifference

/-!
# Trees whose nodes are their own counterparts

If every node of the right tree that has an id is also a node of the left tree, a counterpart
carries what the node carries. It makes no difference then whether a place of the right tree is
addressed through its counterparts or in its own tree, nor which of the two nodes describes it, so
the script compares the slots that the two trees have on their own. This is so wherever nodes have
only been moved. Where they have not even been moved, nothing is left to compare.
-/

namespace TreeDelta

variable {left right : SyntaxTree} {mapping : Correspondence}

/-- A node with an id has a counterpart that carries the same. -/
theorem Correspondence.PairsIds.own
    (paired : PairsIds (Place.top left) (Place.top right) mapping)
    (shared : ∀ node ∈ right.preorder, node.id?.isSome → node ∈ left.preorder)
    {place : Place Node} (listed : place ∈ (Place.top right).preorder) {id : String}
    (carried : place.label.id? = some id) :
    ∃ counterpart, mapping.left? place = some counterpart ∧ counterpart.label = place.label := by
  have member := shared place.label ((Place.mem_labels_iff _ _).mpr ⟨place, listed, rfl⟩)
    (Option.isSome_of_mem carried)
  obtain ⟨counterpart, counterpartListed, same⟩ := (Place.mem_labels_iff _ _).mp member
  exact ⟨counterpart, (paired place listed counterpart).mpr
    ⟨counterpartListed, id, same ▸ carried, carried⟩, same⟩

namespace Address

/-- A place is addressed through its counterparts as it is in its own tree. -/
theorem through_own
    (paired : Correspondence.PairsIds (Place.top left) (Place.top right) mapping)
    (shared : ∀ node ∈ right.preorder, node.id?.isSome → node ∈ left.preorder)
    {place : Place Node} (listed : place ∈ (Place.top right).preorder) :
    through mapping place = ofPlace place := by
  have named {place : Place Node} (listed : place ∈ (Place.top right).preorder) {id : String}
      (carried : place.label.id? = some id) : through mapping place = ofPlace place := by
    obtain ⟨counterpart, found, same⟩ := paired.own shared listed carried
    rw [through_paired found, of_place_named carried, of_place_named (same ▸ carried)]
  obtain ⟨tree, above⟩ := place
  induction above generalizing tree with
  | nil =>
    cases carried : (Place.mk tree []).label.id? with
    | some id => exact named listed carried
    | none => rw [through_top (paired.unnamed listed carried), of_place_top carried]
  | cons up further inductionHypothesis =>
    cases carried : (Place.mk tree (up :: further)).label.id? with
    | some id => exact named listed carried
    | none =>
      rw [through_below (paired.unnamed listed carried), of_place_below carried,
        inductionHypothesis up.tree (Place.parent_listed listed).1]

end Address

namespace Slot

/-- A place is described by what it carries itself. -/
theorem described_own
    (paired : Correspondence.PairsIds (Place.top left) (Place.top right) mapping)
    (shared : ∀ node ∈ right.preorder, node.id?.isSome → node ∈ left.preorder)
    {place : Place Node} (listed : place ∈ (Place.top right).preorder) :
    described mapping place = place.label := by
  cases carried : place.label.id? with
  | some id =>
    obtain ⟨counterpart, found, same⟩ := paired.own shared listed carried
    simp [described, found, same]
  | none => rw [described, paired.unnamed listed carried]

/-- A place has the slot that it has in its own tree. -/
theorem right_own
    (paired : Correspondence.PairsIds (Place.top left) (Place.top right) mapping)
    (shared : ∀ node ∈ right.preorder, node.id?.isSome → node ∈ left.preorder)
    {place : Place Node} (listed : place ∈ (Place.top right).preorder) :
    ofRight? mapping place = ofLeft? place := by
  have described := described_own paired shared listed
  obtain ⟨tree, above⟩ := place
  cases above with
  | nil => rfl
  | cons up further =>
    have above := Address.through_own paired shared (Place.parent_listed listed).1
    rw [Address.through, Address.ofPlace] at above
    simp only [ofRight?, ofLeft?, described, above]

end Slot

namespace Extraction

/-- Where every node of the right tree that has an id is also a node of the left tree, the script
compares the slots that both trees have on their own. -/
theorem by_id_own (leftDistinct : left.DistinctIds) (rightDistinct : right.DistinctIds)
    (shared : ∀ node ∈ right.preorder, node.id?.isSome → node ∈ left.preorder) :
    ∃ mapping, byId (Place.top left) (Place.top right) =
        .ok (withCorrespondence (Place.top left) (Place.top right) mapping) ∧
      rightSlots mapping (Place.top right) = leftSlots (Place.top right) := by
  obtain ⟨mapping, found, paired⟩ := Correspondence.by_id_exact leftDistinct rightDistinct
  refine ⟨mapping, ?_, congrArg (firstSlots []) (List.filterMap_congr fun place listed =>
    Slot.right_own paired shared listed)⟩
  rw [byId, found]
  rfl

/-- Slots lack nothing of themselves. -/
theorem without_self (slots : List Slot) : without slots slots = [] :=
  without_nothing fun _ member => member

/-- A tree that is compared with itself has an empty script. -/
theorem by_id_self {tree : SyntaxTree} (distinct : tree.DistinctIds) :
    byId (Place.top tree) (Place.top tree) = .ok [] := by
  obtain ⟨mapping, extracted, own⟩ := by_id_own distinct distinct fun _ member _ => member
  rw [extracted, withCorrespondence, own, without_self]
  rfl

end Extraction

end TreeDelta
