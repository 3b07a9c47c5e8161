import TreeDelta.Proofs.AddressResolution
import TreeDelta.Proofs.SlotDifference
import TreeDelta.Proofs.Tree.Corresponding

/-!
# Slots of corresponding places

Where places of two trees correspond, the slots of the right ones may be compared with those of the
left ones, one by one. If every place of the right tree is addressed as the place that corresponds
to it is in the left tree, and described by its kind and value, both slots have the same address.
-/

namespace TreeDelta

variable {tops goes : Node → Node → Bool} {left right : SyntaxTree} {mapping : Correspondence}

/-- Whether places of the right tree are addressed and described as those that correspond to them in
the left tree are. -/
structure Correspondence.Transfers (tops goes : Node → Node → Bool) (left right : SyntaxTree)
    (mapping : Correspondence) : Prop where
  addressed : ∀ place ∈ (Place.top left).preorder, ∀ other ∈ (Place.top right).preorder,
    Place.Corresponds tops goes place other →
      Address.through mapping other = Address.ofPlace place
  described : ∀ place ∈ (Place.top left).preorder, ∀ other ∈ (Place.top right).preorder,
    Place.Corresponds tops goes place other →
      (Slot.described mapping other).kind = place.label.kind ∧
        (Slot.described mapping other).value? = place.label.value?

/-- A place of the right tree then has the slot address of the place that corresponds to it. -/
theorem Slot.address_transferred (transfers : Correspondence.Transfers tops goes left right mapping)
    {place other : Place Node} (corresponds : Place.Corresponds tops goes place other)
    (listed : place ∈ (Place.top left).preorder)
    (otherListed : other ∈ (Place.top right).preorder) :
    (ofRight? mapping other).map address = (ofLeft? place).map address := by
  obtain ⟨kind, value⟩ := transfers.described place listed other otherListed corresponds
  cases corresponds with
  | top => rfl
  | child above index labels =>
    have parents := transfers.addressed _ (Place.parent_listed listed).1 _
      (Place.parent_listed otherListed).1 above
    rw [Address.through, Address.ofPlace] at parents
    simp only [ofRight?, ofLeft?, Option.map_some, Address.step, kind, value, parents, index]

namespace Extraction

/-- Places that correspond have slots with the same addresses, in order. -/
theorem addresses_transferred (transfers : Correspondence.Transfers tops goes left right mapping)
    {places others : List (Place Node)} (listed : places ⊆ (Place.top left).preorder)
    (otherListed : others ⊆ (Place.top right).preorder)
    (corresponds : List.Forall₂ (Place.Corresponds tops goes) places others) :
    (others.filterMap (Slot.ofRight? mapping)).map Slot.address =
      (places.filterMap Slot.ofLeft?).map Slot.address := by
  rw [List.map_filterMap, List.map_filterMap, eq_comm, ← List.forall₂_eq_eq_eq]
  refine List.rel_filterMap (fun place other => ?_) (Place.related_listed corresponds)
  rintro ⟨inside, otherInside, here⟩
  rw [Slot.address_transferred transfers here (listed inside) (otherListed otherInside)]
  cases (Slot.ofLeft? place).map Slot.address with
  | none => exact .none
  | some address => exact .some rfl

end Extraction

end TreeDelta
