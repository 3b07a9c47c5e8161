import TreeDelta.Proofs.PairingRelation
import TreeDelta.Proofs.SharedIds

/-!
# Correspondences as relations of places

Places are compared by their paths, which tell the places of one tree apart but not those of two
trees. A correspondence that represents a relation between the places of two trees is therefore that
relation as far as it is asked about these places: the partner of a place is the one place that is
related to it, from either side.
-/

namespace TreeDelta

/-- Places of one tree that count as the same are equal. -/
theorem Place.eq_of_same {α : Type} {root first second : Place α}
    (firstListed : first ∈ root.preorder) (secondListed : second ∈ root.preorder)
    (same : (first == second) = true) : first = second :=
  Reaches.eq_of_path ((mem_preorder_iff _ _).mp firstListed)
    ((mem_preorder_iff _ _).mp secondListed) ((equal_iff _ _).mp same)

namespace Correspondence

/-- A correspondence pairs the places of two trees that are related, and no others. -/
structure Relates (left right : Place Node) (related : Place Node → Place Node → Prop)
    (mapping : Correspondence) : Prop where
  right? : ∀ place ∈ left.preorder, ∀ counterpart,
    mapping.right? place = some counterpart ↔ related place counterpart
  left? : ∀ place ∈ right.preorder, ∀ counterpart,
    mapping.left? place = some counterpart ↔ related counterpart place
  pairs : ∀ place counterpart, (place, counterpart) ∈ mapping.pairs ↔ related place counterpart

variable {left right : Place Node} {related : Place Node → Place Node → Prop}
variable {mapping : Correspondence}

/-- A pairing that represents a relation between the places of two trees pairs those that are
related. -/
theorem relates_of_represents
    (represents : Pairing.Represents mapping {pair | related pair.1 pair.2})
    (listed : ∀ place counterpart, related place counterpart →
      place ∈ left.preorder ∧ counterpart ∈ right.preorder) :
    Relates left right related mapping where
  right? place placeListed counterpart := by
    rw [represents.right_iff]
    constructor
    · rintro ⟨member, paired, same⟩
      rwa [← Place.eq_of_same (listed _ _ paired).1 placeListed same]
    · exact fun paired => ⟨place, paired, BEq.rfl⟩
  left? place placeListed counterpart := by
    rw [represents.left_iff]
    constructor
    · rintro ⟨member, paired, same⟩
      rwa [← Place.eq_of_same (listed _ _ paired).2 placeListed same]
    · exact fun paired => ⟨place, paired, BEq.rfl⟩
  pairs place counterpart := represents.pairs (place, counterpart)

end Correspondence

end TreeDelta
