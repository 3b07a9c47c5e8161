import Mathlib.Data.List.Dedup
import TreeDelta.Proofs.AddressResolution
import TreeDelta.Proofs.SlotDifference

/-!
# No node is lost

Slots are kept once per address, so a node would go unseen if its slot had the address of another
one's. Among trees without repeated ids that cannot happen: a slot names an index below an address,
the address leads to one place only, and a place has one child at an index. Every node but the top
has a slot of its own, and what a script inserts and deletes accounts exactly for the difference of
the two sizes.
-/

namespace TreeDelta

namespace Slot

/-- Places have the same address, or both none, only if they are the same. -/
def TellsApart (slotOf : Place Node → Option Slot) (root : Place Node) : Prop :=
  ∀ first ∈ root.preorder, ∀ second ∈ root.preorder,
    (slotOf first).map address = (slotOf second).map address → first = second

/-- What all slots have in common: the top has none, and the address of any other place is an index
below an address of its parent. -/
structure Positional (slotOf : Place Node → Option Slot) (parentAddress : Place Node → Address) :
    Prop where
  top : ∀ tree, slotOf ⟨tree, []⟩ = none
  below : ∀ tree up further, ∃ slot kind value?, slotOf ⟨tree, up :: further⟩ = some slot ∧
    slot.address = .child up.index kind value? (parentAddress ⟨up.tree, further⟩)

/-- Slots of the left tree are positional. -/
theorem left_positional : Positional ofLeft? Address.ofPlace where
  top _ := rfl
  below _ _ _ := ⟨_, _, _, rfl, rfl⟩

/-- Slots of the right tree are positional, whichever node describes them. -/
theorem right_positional (mapping : Correspondence) :
    Positional (ofRight? mapping) (Address.through mapping) where
  top _ := rfl
  below _ _ _ := ⟨_, _, _, rfl, rfl⟩

variable {slotOf : Place Node → Option Slot} {parentAddress : Place Node → Address}

/-- Positional slots tell the places of a tree apart if the addresses of their parents do. -/
theorem Positional.tells_apart_below (positional : Positional slotOf parentAddress)
    {tree : SyntaxTree}
    (injective : ∀ first ∈ (Place.top tree).preorder, ∀ second ∈ (Place.top tree).preorder,
      parentAddress first = parentAddress second → first = second) :
    TellsApart slotOf (Place.top tree) := by
  rintro ⟨first, firstAbove⟩ firstListed ⟨second, secondAbove⟩ secondListed same
  cases firstAbove with
  | nil =>
    cases secondAbove with
    | nil =>
      exact Place.Reaches.eq_of_path ((Place.mem_preorder_iff _ _).mp firstListed)
        ((Place.mem_preorder_iff _ _).mp secondListed) rfl
    | cons up further =>
      obtain ⟨slot, kind, value?, found, _⟩ := positional.below second up further
      simp [positional.top, found] at same
  | cons firstUp firstFurther =>
    obtain ⟨slot, kind, value?, found, address⟩ := positional.below first firstUp firstFurther
    cases secondAbove with
    | nil => simp [positional.top, found] at same
    | cons secondUp secondFurther =>
      obtain ⟨other, otherKind, otherValue?, otherFound, otherAddress⟩ :=
        positional.below second secondUp secondFurther
      simp only [found, otherFound, Option.map_some, Option.some.injEq, address, otherAddress,
        Address.child.injEq] at same
      obtain ⟨sameIndex, _, _, sameParent⟩ := same
      obtain ⟨firstParent, firstBranch⟩ := Place.parent_listed firstListed
      obtain ⟨secondParent, secondBranch⟩ := Place.parent_listed secondListed
      exact Place.same_child (injective _ firstParent _ secondParent sameParent) sameIndex
        firstBranch secondBranch

/-- Positional slots tell the places of a tree apart if the addresses of the parents lead to
them. -/
theorem Positional.tells_apart (positional : Positional slotOf parentAddress) {tree : SyntaxTree}
    (distinct : tree.DistinctIds)
    (leads : ∀ place ∈ (Place.top tree).preorder, (parentAddress place).Leads place) :
    TellsApart slotOf (Place.top tree) :=
  positional.tells_apart_below fun _ firstListed _ secondListed same =>
    Address.Leads.tells_apart distinct leads firstListed secondListed same

/-- If slots tell the places of a tree apart, no address is listed twice. -/
theorem TellsApart.addresses_nodup {root : Place Node} (apart : TellsApart slotOf root) :
    ((root.preorder.filterMap slotOf).map address).Nodup := by
  rw [List.map_filterMap]
  have different : root.preorder.Pairwise fun early late =>
      (slotOf early).map address ≠ (slotOf late).map address := by
    refine (Place.preorder_paths_differ root).imp_of_mem fun early late differ same => ?_
    exact differ (congrArg Place.path (apart _ early _ late same))
  refine different.filterMap _ fun early late differ first found second otherFound same => ?_
  exact differ (found.trans (same ▸ otherFound.symm))

/-- Every place of a tree but its top has a positional slot. -/
theorem Positional.count (positional : Positional slotOf parentAddress) (tree : SyntaxTree) :
    ((Place.top tree).preorder.filterMap slotOf).length + 1 = tree.size := by
  have size : (Place.top tree).preorder.length = tree.size := Place.preorder_length (Place.top tree)
  have differ := Place.preorder_paths_differ (Place.top tree)
  obtain ⟨label, branches⟩ := tree
  simp only [Place.preorder, Place.top, Place.preorderFrom] at size differ ⊢
  have slots : ∀ place ∈ Place.preorderBranches (.node label branches) [] 0 branches,
      (slotOf place).isSome := by
    rintro ⟨tree, above⟩ listed
    cases above with
    | nil => exact ((List.pairwise_cons.mp differ).1 _ listed rfl).elim
    | cons up further =>
      obtain ⟨slot, _, _, found, _⟩ := positional.below tree up further
      simp [found]
  rw [List.filterMap_cons_none (positional.top _), List.filterMap_length_eq_length.mpr slots]
  exact size

end Slot

namespace Extraction

/-- As many slots are kept as there are different addresses. -/
theorem first_slots_length (slots : List Slot) :
    (firstSlots [] slots).length = (slots.map Slot.address).dedup.length := by
  have same : ((firstSlots [] slots).map Slot.address).Perm (slots.map Slot.address).dedup :=
    (List.perm_ext_iff_of_nodup (first_slots_nodup [] slots) (List.nodup_dedup _)).mpr
      fun address => by simp [first_slots_addresses]
  simpa using same.length_eq

/-- A list of slots consists of those that another one lacks and those that it shares. -/
theorem without_length (slots others : List Slot) :
    (without slots others).length +
      (slots.filter fun slot => slot.address ∈ others.map Slot.address).length =
        slots.length := by
  have parts := (List.filter_append_perm
    (fun slot : Slot => decide (slot.address ∈ others.map Slot.address)) slots).length_eq
  have lacking : without slots others =
      slots.filter fun slot => !decide (slot.address ∈ others.map Slot.address) := by
    simp only [without, decide_not]
  rw [lacking, Nat.add_comm, ← List.length_append, parts]

/-- Two lists without repeated addresses share as many slots from either side. -/
theorem shared_length (slots others : List Slot) (unique : (slots.map Slot.address).Nodup)
    (othersUnique : (others.map Slot.address).Nodup) :
    (slots.filter fun slot => slot.address ∈ others.map Slot.address).length =
      (others.filter fun slot => slot.address ∈ slots.map Slot.address).length := by
  have addresses (first second : List Slot) :
      (first.filter fun slot => slot.address ∈ second.map Slot.address).map Slot.address =
        (first.map Slot.address).filter (· ∈ second.map Slot.address) := by
    rw [List.filter_map]
    rfl
  have same : ((slots.map Slot.address).filter (· ∈ others.map Slot.address)).Perm
      ((others.map Slot.address).filter (· ∈ slots.map Slot.address)) := by
    refine (List.perm_ext_iff_of_nodup (unique.filter _) (othersUnique.filter _)).mpr ?_
    intro address
    simp only [List.mem_filter, decide_eq_true_eq]
    exact And.comm
  rw [← addresses, ← addresses] at same
  simpa only [List.length_map] using same.length_eq

/-- The insertions of a script are counted by their letter. -/
theorem edits_insertions (script : Script) :
    script.edits.countP (fun edit => edit.tag = 'I') = script.insertions.length := by
  simp [Script.edits, List.countP_map, Function.comp_def, Edit.tag]

/-- The deletions of a script are counted by their letter. -/
theorem edits_deletions (script : Script) :
    script.edits.countP (fun edit => edit.tag = 'D') = script.deletions.length := by
  simp [Script.edits, List.countP_map, Function.comp_def, Edit.tag]

/-- What a script inserts beyond what it deletes is what the right tree has more different addresses
than the left one. -/
theorem script_surplus (left right : Place Node) (mapping : Correspondence) :
    let script := withCorrespondence left right mapping
    script.countP (fun edit => edit.tag = 'I') + (leftAddresses left).dedup.length =
      script.countP (fun edit => edit.tag = 'D') +
        (rightAddresses mapping right).dedup.length := by
  intro script
  have leftLength : (leftSlots left).length = (leftAddresses left).dedup.length :=
    first_slots_length _
  have rightLength : (rightSlots mapping right).length =
      (rightAddresses mapping right).dedup.length := first_slots_length _
  have shared := shared_length (leftSlots left) (rightSlots mapping right)
    (first_slots_nodup [] _) (first_slots_nodup [] _)
  have leftParts := without_length (leftSlots left) (rightSlots mapping right)
  have rightParts := without_length (rightSlots mapping right) (leftSlots left)
  have removed := (match_moves_removed (without (leftSlots left) (rightSlots mapping right))
    (without (rightSlots mapping right) (leftSlots left))).length_eq
  have added := (match_moves_added (without (leftSlots left) (rightSlots mapping right))
    (without (rightSlots mapping right) (leftSlots left))).length_eq
  simp only [List.length_append, List.length_map] at removed added
  simp only [script, withCorrespondence, edits_insertions, edits_deletions]
  omega

/-- What a script inserts beyond what it deletes is what the right tree has more slots than the
left one, if neither lists an address twice. -/
theorem script_balance (left right : Place Node) (mapping : Correspondence)
    (leftUnique : (leftAddresses left).Nodup) (rightUnique : (rightAddresses mapping right).Nodup) :
    let script := withCorrespondence left right mapping
    script.countP (fun edit => edit.tag = 'I') + (leftAddresses left).length =
      script.countP (fun edit => edit.tag = 'D') + (rightAddresses mapping right).length := by
  have surplus := script_surplus left right mapping
  rwa [leftUnique.dedup, rightUnique.dedup] at surplus

/-- Two trees without repeated ids can be compared, and no node of them is lost. Different nodes of
either tree have slots with different addresses, and the script inserts as many nodes more than it
deletes as the right tree has more nodes than the left one.

Addresses that tell the nodes apart do not repeat. So each side has one slot for every node but its
top, and what the script adds and removes balances the two counts. -/
theorem by_id_loses_no_node (left right : SyntaxTree) (leftDistinct : left.DistinctIds)
    (rightDistinct : right.DistinctIds) :
    ∃ mapping script,
      Correspondence.byId (Place.top left) (Place.top right) = .ok mapping ∧
      byId (Place.top left) (Place.top right) = .ok script ∧
      Slot.TellsApart Slot.ofLeft? (Place.top left) ∧
      Slot.TellsApart (Slot.ofRight? mapping) (Place.top right) ∧
      ((script.countP fun edit => edit.tag = 'I' : Nat) : Int) -
          (script.countP fun edit => edit.tag = 'D' : Nat) =
        (right.size : Int) - left.size := by
  have paired := Correspondence.by_id_pairs leftDistinct rightDistinct
  have shared := Correspondence.by_id_sound right leftDistinct
  generalize Pairing.ofList (Correspondence.sharedIds (Place.top left) (Place.top right)) =
    mapping at paired shared
  have leftApart := Slot.left_positional.tells_apart leftDistinct fun place _ =>
    Address.of_place_leads place
  have rightApart := (Slot.right_positional mapping).tells_apart rightDistinct
    (Address.through_leads shared)
  have balance := script_balance (Place.top left) (Place.top right) mapping
    leftApart.addresses_nodup rightApart.addresses_nodup
  have leftCount := Slot.left_positional.count left
  have rightCount := (Slot.right_positional mapping).count right
  simp only [leftAddresses, rightAddresses, List.length_map] at balance
  refine ⟨mapping, withCorrespondence (Place.top left) (Place.top right) mapping, paired, ?_,
    leftApart, rightApart, by omega⟩
  rw [byId, paired]
  rfl

/-- Where a block with an id moves behind a new call and gets a second call of the same kind, the
script inserts two nodes more than it deletes. -/
theorem two_calls_gained :
    ∃ script,
      byId
        (Place.top (.node (Node.bare "script")
          [("0", .node { Node.bare "block" with id? := some "b" }
            [("0", .leaf (Node.bare "call"))])]))
        (Place.top (.node (Node.bare "script")
          [("0", .leaf (Node.bare "call")),
            ("1", .node { Node.bare "block" with id? := some "b" }
              [("0", .leaf (Node.bare "call")), ("1", .leaf (Node.bare "call"))])])) =
          .ok script ∧
      ((script.countP fun edit => edit.tag = 'I' : Nat) : Int) -
        (script.countP fun edit => edit.tag = 'D' : Nat) = 2 := by
  obtain ⟨_, script, _, extracted, _, _, balance⟩ := by_id_loses_no_node
    (.node (Node.bare "script")
      [("0", .node { Node.bare "block" with id? := some "b" }
        [("0", .leaf (Node.bare "call"))])])
    (.node (Node.bare "script")
      [("0", .leaf (Node.bare "call")),
        ("1", .node { Node.bare "block" with id? := some "b" }
          [("0", .leaf (Node.bare "call")), ("1", .leaf (Node.bare "call"))])])
    (by decide) (by decide)
  exact ⟨script, extracted, balance⟩

end Extraction

end TreeDelta
