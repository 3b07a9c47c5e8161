import TreeDelta.Proofs.CorrespondingSlots
import TreeDelta.Proofs.Document.Appended
import TreeDelta.Proofs.SlotBalance

/-!
# Appended subtrees

A subtree that comes behind the children of a node, with ids that the tree does not have, changes
the slot of no other node. Every place that was there has a counterpart exactly if it has an id, the
same in either direction, and is addressed as before; and because no two nodes of the grown tree
have slots with the same address, the subtree's are all new. So the script that leads to the grown
tree inserts the nodes of the subtree and does nothing else, and the script that leads back deletes
them and does nothing else, though the two scripts do not address them in the same way: a node below
one with an id is deleted from below that id and inserted by its position.
-/

namespace TreeDelta

open Place (Same Gains)

variable {left right : SyntaxTree} {mapping : Correspondence}

namespace Correspondence.PairsIds

/-- Where nodes are paired by their ids, a node with an id has the one at the same place as its
counterpart. -/
theorem counterpart_of_same (paired : PairsIds (Place.top left) (Place.top right) mapping)
    {place other : Place Node} (same : Same place other)
    (listed : place ∈ (Place.top left).preorder)
    (otherListed : other ∈ (Place.top right).preorder) {id : String}
    (carried : other.label.id? = some id) : mapping.left? other = some place :=
  (paired other otherListed place).mpr ⟨listed, id, same.label ▸ carried, carried⟩

/-- Places that are the same in both trees have the same address: the id that they share, or a
position below parents of which this holds. -/
theorem same_addressed (paired : PairsIds (Place.top left) (Place.top right) mapping)
    {place other : Place Node} (same : Same place other)
    (listed : place ∈ (Place.top left).preorder)
    (otherListed : other ∈ (Place.top right).preorder) :
    Address.through mapping other = Address.ofPlace place := by
  -- From the top down: an id is an address by itself, and without one there is no counterpart, so
  -- the index below the parent and the parent's address decide.
  induction same with
  | @top tree otherTree labels =>
    have same : Same ⟨tree, []⟩ ⟨otherTree, []⟩ := .top labels
    cases carried : (Place.mk otherTree []).label.id? with
    | some id =>
      exact Address.through_paired (paired.counterpart_of_same same listed otherListed carried)
    | none =>
      rw [Address.through_top (paired.unnamed otherListed carried),
        Address.of_place_top (same.label ▸ carried)]
  | @child tree otherTree up otherUp further otherFurther above index labels inductionHypothesis =>
    have same : Same ⟨tree, up :: further⟩ ⟨otherTree, otherUp :: otherFurther⟩ :=
      .child above index labels
    have label : tree.label = otherTree.label := same.label
    cases carried : (Place.mk otherTree (otherUp :: otherFurther)).label.id? with
    | some id =>
      exact Address.through_paired (paired.counterpart_of_same same listed otherListed carried)
    | none =>
      rw [Address.through_below (paired.unnamed otherListed carried),
        Address.of_place_below (same.label ▸ carried), label, index,
        inductionHypothesis (Place.parent_listed listed).1 (Place.parent_listed otherListed).1]

/-- Places that are the same in both trees are described by the same node. -/
theorem same_described (paired : PairsIds (Place.top left) (Place.top right) mapping)
    {place other : Place Node} (same : Same place other)
    (listed : place ∈ (Place.top left).preorder)
    (otherListed : other ∈ (Place.top right).preorder) :
    Slot.described mapping other = place.label := by
  cases carried : other.label.id? with
  | some id =>
    have named : place.label.id? = some id := same.label ▸ carried
    simp [Slot.described, paired.counterpart_of_same same listed otherListed carried, named]
  | none => rw [Slot.described, paired.unnamed otherListed carried, same.label]

/-- So places that are the same in both trees have the same slot addresses. -/
theorem transfers (paired : PairsIds (Place.top left) (Place.top right) mapping) :
    Transfers (fun node other => decide (node = other)) (fun node other => decide (node = other))
      left right mapping where
  addressed _ listed _ otherListed same := paired.same_addressed same listed otherListed
  described place listed other otherListed same := by
    rw [paired.same_described same listed otherListed]
    exact ⟨rfl, rfl⟩

end Correspondence.PairsIds

namespace Extraction

/-! ### Lists of slots -/

variable {slots others : List Slot}

/-- What stands around a middle part of a list stands in the list, in order. -/
theorem around_sublist {α : Type} (front inner back : List α) :
    (front ++ back).Sublist (front ++ inner ++ back) :=
  (List.sublist_append_left front inner).append_right back

/-- Where no address is repeated, every slot is the first of its address. -/
theorem first_slots_of_nodup (unique : (slots.map Slot.address).Nodup) (seen : List Address)
    (unseen : ∀ slot ∈ slots, slot.address ∉ seen) : firstSlots seen slots = slots := by
  induction slots generalizing seen with
  | nil => rfl
  | cons slot rest inductionHypothesis =>
    rw [List.map_cons, List.nodup_cons] at unique
    rw [firstSlots, if_neg (unseen slot List.mem_cons_self),
      inductionHypothesis unique.2 (slot.address :: seen) fun other member => ?_]
    rw [List.mem_cons, not_or]
    exact ⟨fun same => unique.1 (same ▸ List.mem_map_of_mem member),
      unseen other (List.mem_cons_of_mem _ member)⟩

/-- Of slots without repeated addresses, others that have the addresses of all but a middle part
lack the middle part. -/
theorem without_around {front inner back : List Slot}
    (unique : ((front ++ inner ++ back).map Slot.address).Nodup)
    (addresses : others.map Slot.address = (front ++ back).map Slot.address) :
    without (front ++ inner ++ back) others = inner := by
  simp only [List.map_append, List.nodup_append', List.disjoint_append_left] at unique
  obtain ⟨⟨-, -, behindFront⟩, -, -, beforeBack⟩ := unique
  have around {slot : Slot} (member : slot ∈ front ++ back) :
      slot.address ∈ others.map Slot.address := addresses ▸ List.mem_map_of_mem member
  have between {slot : Slot} (member : slot ∈ inner) :
      slot.address ∉ others.map Slot.address := by
    have listed := List.mem_map_of_mem (f := Slot.address) member
    rw [addresses, List.map_append, List.mem_append, not_or]
    exact ⟨fun before => behindFront before listed, fun behind => beforeBack listed behind⟩
  have nothing {slots : List Slot} (inside : slots ⊆ front ++ back) :
      slots.filter (fun slot => decide (slot.address ∉ others.map Slot.address)) = [] :=
    List.filter_eq_nil_iff.mpr fun slot member => by simpa using around (inside member)
  rw [without, List.filter_append, List.filter_append,
    nothing (List.subset_append_left _ _), nothing (List.subset_append_right _ _),
    List.nil_append, List.append_nil]
  exact List.filter_eq_self.mpr fun slot member => by simpa using between member

/-- Removed slots for which there is nothing to take are deleted, in order. -/
theorem match_moves_nothing (removed : List Slot) : matchMoves removed [] = ⟨[], removed, []⟩ := by
  induction removed with
  | nil => rfl
  | cons slot rest inductionHypothesis =>
    have unmatched : match? slot [] = none := by
      cases slot.place.label.id? <;> simp [match?]
    rw [matchMoves, unmatched]
    simp only [inductionHypothesis]

/-! ### The slots of the subtree -/

variable {slotOf : Place Node → Option Slot} {parentAddress : Place Node → Address}
  {tree grown : SyntaxTree} {added : Place Node}

/-- Places that have something above them have a slot each. -/
theorem slots_of_places (positional : Slot.Positional slotOf parentAddress)
    (holds : ∀ place slot, slotOf place = some slot → slot.place = place)
    {places : List (Place Node)} (below : ∀ place ∈ places, place.above ≠ []) :
    (places.filterMap slotOf).map Slot.place = places := by
  have own : ∀ place ∈ places, (slotOf place).map Slot.place = some place := by
    rintro ⟨inner, above⟩ listed
    cases above with
    | nil => exact absurd rfl (below _ listed)
    | cons up further =>
      obtain ⟨slot, -, -, found, -⟩ := positional.below inner up further
      rw [found, Option.map_some, holds _ _ found]
  rw [List.map_filterMap, List.filterMap_congr own, List.filterMap_some]

/-- If another tree has the addresses of all slots but those of one subtree, these are what the two
differ in. -/
theorem difference_of_subtree (positional : Slot.Positional slotOf parentAddress)
    (holds : ∀ place slot, slotOf place = some slot → slot.place = place)
    (apart : Slot.TellsApart slotOf (Place.top grown)) (below : added.above ≠ [])
    {front back : List (Place Node)}
    (places : (Place.top grown).preorder = front ++ added.preorder ++ back)
    (addresses : others.map Slot.address =
      ((front ++ back).filterMap slotOf).map Slot.address) :
    ∃ surplus, surplus.map Slot.place = added.preorder ∧
      without (firstSlots [] ((Place.top grown).preorder.filterMap slotOf))
        (firstSlots [] others) = surplus ∧
      without (firstSlots [] others)
        (firstSlots [] ((Place.top grown).preorder.filterMap slotOf)) = [] := by
  have unique := apart.addresses_nodup
  have slots : (Place.top grown).preorder.filterMap slotOf = front.filterMap slotOf ++
      added.preorder.filterMap slotOf ++ back.filterMap slotOf := by
    rw [places, List.filterMap_append, List.filterMap_append]
  rw [List.filterMap_append] at addresses
  rw [slots] at unique ⊢
  have around := around_sublist (front.filterMap slotOf) (added.preorder.filterMap slotOf)
    (back.filterMap slotOf)
  have othersUnique : (others.map Slot.address).Nodup :=
    addresses ▸ (around.map Slot.address).nodup unique
  rw [first_slots_of_nodup unique [] (by simp), first_slots_of_nodup othersUnique [] (by simp)]
  have inside : ∀ place ∈ added.preorder, place.above ≠ [] := fun place listed =>
    Place.above_of_listed listed below
  refine ⟨_, slots_of_places positional holds inside, without_around unique addresses,
    without_nothing fun address occurs => ?_⟩
  rw [addresses] at occurs
  exact (around.map Slot.address).subset occurs

/-- The ids of a tree that has gained a subtree are different if the subtree's are and the tree does
not have them. -/
theorem distinct_of_gains (distinct : tree.DistinctIds) (addedDistinct : added.tree.DistinctIds)
    (foreign : ∀ id ∈ added.tree.ids, id ∉ tree.ids)
    (gains : Gains (Place.top tree).preorder (Place.top grown).preorder added) :
    grown.DistinctIds := by
  have labels := gains.labels
  rw [Place.preorder_labels, Place.preorder_labels] at labels
  have ids : grown.ids.Perm (tree.ids ++ added.tree.ids) := by
    have carried := labels.filterMap Node.id?
    rwa [List.filterMap_append] at carried
  exact ids.nodup_iff.mpr (List.nodup_append'.mpr ⟨distinct, addedDistinct,
    fun id here there => foreign id there here⟩)

/-- The script that leads to a tree that has gained a subtree inserts the nodes of the subtree in
pre-order. -/
theorem gained_inserted (distinct : tree.DistinctIds) (grownDistinct : grown.DistinctIds)
    (below : added.above ≠ [])
    (gains : Gains (Place.top tree).preorder (Place.top grown).preorder added) :
    ∃ inserted : List Slot,
      byId (Place.top tree) (Place.top grown) = .ok (inserted.map Edit.insertion) ∧
      inserted.map Slot.place = added.preorder := by
  obtain ⟨mapping, found, paired⟩ := Correspondence.by_id_exact distinct grownDistinct
  obtain ⟨front, back, places, kept⟩ := gains
  have inside : front ++ back ⊆ (Place.top grown).preorder :=
    places ▸ (around_sublist front added.preorder back).subset
  have apart := (Slot.right_positional mapping).tells_apart grownDistinct
    (Address.through_leads fun place listed counterpart =>
      (paired place listed counterpart).mp)
  obtain ⟨inserted, same, taken, given⟩ := difference_of_subtree (Slot.right_positional mapping)
    (Slot.right_place mapping) apart below places
    (addresses_transferred paired.transfers (List.Subset.refl _) inside kept).symm
  refine ⟨inserted, ?_, same⟩
  rw [byId, found, Except.map, withCorrespondence]
  simp only [leftSlots, rightSlots, taken, given]
  rfl

/-- The script that leads back deletes them in pre-order. -/
theorem gained_deleted (distinct : tree.DistinctIds) (grownDistinct : grown.DistinctIds)
    (below : added.above ≠ [])
    (gains : Gains (Place.top tree).preorder (Place.top grown).preorder added) :
    ∃ deleted : List Slot,
      byId (Place.top grown) (Place.top tree) = .ok (deleted.map Edit.deletion) ∧
      deleted.map Slot.place = added.preorder := by
  obtain ⟨mapping, found, paired⟩ := Correspondence.by_id_exact grownDistinct distinct
  obtain ⟨front, back, places, kept⟩ := gains
  have inside : front ++ back ⊆ (Place.top grown).preorder :=
    places ▸ (around_sublist front added.preorder back).subset
  have apart := Slot.left_positional.tells_apart grownDistinct fun place _ =>
    Address.of_place_leads place
  have backwards : List.Forall₂ Same (front ++ back) (Place.top tree).preorder :=
    kept.flip.imp fun _ _ same => Same.symm same
  obtain ⟨deleted, same, given, taken⟩ := difference_of_subtree Slot.left_positional
    Slot.left_place apart below places
    (addresses_transferred paired.transfers inside (List.Subset.refl _) backwards)
  refine ⟨deleted, ?_, same⟩
  rw [byId, found, Except.map, withCorrespondence]
  simp only [leftSlots, rightSlots, taken, given, match_moves_nothing]
  simp [Script.edits]

/-! ### Scripts of documents -/

open Document Editing

/-- When a subtree with ids of its own is imported into the document of a tree without repeated ids
and added behind the children of a node, under any key that the node does not have yet or under a
fresh one, it is the last child of the node, and the script that leads to the changed tree inserts
the nodes of the subtree in pre-order and does nothing else. The script that leads back deletes them
in pre-order and does nothing else. -/
theorem appended_subtree_alone_reported (tree added : SyntaxTree) (distinct : tree.DistinctIds)
    (addedDistinct : added.DistinctIds) (foreign : ∀ id ∈ added.ids, id ∉ tree.ids)
    {parent : Handle} (present : (ofTree tree).has parent = true) {relation? : Option String}
    (free : ∀ relation ∈ relation?, relation ∉ (ofTree tree).relations parent) :
    ∃ imported child after changed place,
      perform (importTree added) (ofTree tree) = (.ok child, imported) ∧
      perform (addChild parent relation? child) imported = (.ok ⟨⟩, after) ∧
      after.tree? after.root = some changed ∧
      after.children parent = (ofTree tree).children parent ++ [child] ∧
      after.syntaxPlace? child = some place ∧ place.tree = added ∧
      (∃ inserted : List Slot,
        byId (Place.top tree) (Place.top changed) = .ok (inserted.map Edit.insertion) ∧
          inserted.map Slot.place = place.preorder) ∧
      ∃ deleted : List Slot,
        byId (Place.top changed) (Place.top tree) = .ok (deleted.map Edit.deletion) ∧
          deleted.map Slot.place = place.preorder := by
  obtain ⟨after, grown, up, further, moved, children, trees, unique, root, gains⟩ :=
    append_gains added present free
  obtain ⟨place, found, rfl, below, syntaxGains⟩ := gained_place trees unique gains
  have grownDistinct := distinct_of_gains distinct addedDistinct foreign syntaxGains
  have single : Single after grown := ⟨trees, unique, grownDistinct⟩
  exact ⟨_, _, after, _, place, perform_import_tree _ _, moved, single.tree_of_root root, children,
    found, rfl, gained_inserted distinct grownDistinct below syntaxGains,
    gained_deleted distinct grownDistinct below syntaxGains⟩

/-- A call with an id, its name without one and a block with an id below the name are appended to a
block without id, in front of a block that looks the same. Three insertions lead to the changed
tree, and three deletions lead back. -/
theorem call_appended_to_block :
    let tree : SyntaxTree := .node (Node.bare "script")
      [("0", .node (Node.bare "block") [("0", .leaf (Node.bare "literal"))]),
        ("1", .node (Node.bare "block")
          [("0", .leaf { Node.bare "literal" with id? := some "x" })])]
    let added : SyntaxTree := .node { Node.bare "call" with id? := some "c" }
      [("0", .node (Node.bare "name") [("0", .leaf { Node.bare "block" with id? := some "b" })])]
    ∃ imported after changed, ∃ inserted deleted : List Slot,
      perform (importTree added) (ofTree tree) = (.ok 5, imported) ∧
      perform (addChild 1 (some "last") 5) imported = (.ok ⟨⟩, after) ∧
      after.tree? after.root = some changed ∧ after.children 1 = [2, 5] ∧
      byId (Place.top tree) (Place.top changed) = .ok (inserted.map Edit.insertion) ∧
      byId (Place.top changed) (Place.top tree) = .ok (deleted.map Edit.deletion) ∧
      inserted.map Slot.place = deleted.map Slot.place ∧ inserted.length = 3 := by
  intro tree added
  obtain ⟨imported, child, after, changed, place, brought, moved, found, children, -, placed,
    ⟨inserted, forth, insertedPlaces⟩, deleted, back, deletedPlaces⟩ :=
    appended_subtree_alone_reported tree added (by decide) (by decide) (by decide)
      (show (ofTree tree).has 1 = true by decide +kernel)
      (show ∀ relation ∈ some "last", relation ∉ (ofTree tree).relations 1 by decide +kernel)
  obtain rfl : child = 5 := by
    rw [perform_import_tree] at brought
    exact (Except.ok.inj (Prod.mk.inj brought).1).symm
  have below : (ofTree tree).children 1 = [2] := by decide +kernel
  have count := congrArg List.length insertedPlaces
  rw [List.length_map, Place.preorder_length, placed] at count
  exact ⟨imported, after, changed, inserted, deleted, brought, moved, found,
    children.trans (congrArg (· ++ [5]) below), forth, back,
    insertedPlaces.trans deletedPlaces.symm, count⟩

end Extraction

end TreeDelta
