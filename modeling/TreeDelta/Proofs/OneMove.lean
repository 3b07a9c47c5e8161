import TreeDelta.Proofs.Document.Identified
import TreeDelta.Proofs.EditCounts
import TreeDelta.Proofs.OwnSlots
import TreeDelta.Proofs.SlotResolution

/-!
# When a node that is given another parent is reported as one move

If every node of a tree has an id of its own, the address of a slot is the parent's id, the index
and the kind and value of the node. A node that is given another parent has left its old slot behind
unless the sibling that stood behind it looks the same, for that one takes the address over.
Likewise it has taken up a new slot unless the sibling that stands behind it now looks the same, for
that one has left the address to it. A move needs both slots; where only one of them is seen, the
node is reported as deleted or as inserted, and where none is, it is not reported at all. What hangs
below the node keeps its slots in any case.
-/

namespace TreeDelta

namespace Document

/-- Whether the sibling that stands behind a node has the same kind and value. -/
def followedAlike (document : Document) (handle : Handle) : Bool :=
  let alike? := do
    let parent ← document.parent? handle
    let index ← document.index? handle
    let next ← document.child? parent (index + 1)
    let node ← document.node? handle
    let other ← document.node? next
    return node.agrees false other
  alike?.getD false

variable {document before after : Document} {whole grown : Tree Entry}

/-- The sibling behind the child at an index is the child at the next index. -/
theorem followed_alike_iff (unique : document.handles.Nodup) {upper lower : Handle} {index : Nat}
    (child : document.child? upper index = some lower) {node : Node}
    (carried : document.node? lower = some node) :
    document.followedAlike lower = true ↔ ∃ next other,
      document.child? upper (index + 1) = some next ∧ document.node? next = some other ∧
        node.agrees false other = true := by
  obtain ⟨parent, position⟩ := (child_iff unique).mp child
  simp only [followedAlike, parent, position, carried, Option.bind_eq_bind, Option.bind_some,
    Option.pure_def]
  cases document.child? upper (index + 1) with
  | none => simp
  | some next => cases found : document.node? next <;> simp [found]

namespace Single

/-- Where a node has gone from among its siblings and no address has changed, the address of its
slot is still in use if and only if the sibling that stood behind it has the same kind and value. -/
theorem vacated (beforeSingle : Single before whole) (afterSingle : Single after grown)
    (nodes : ∀ handle, after.node? handle = before.node? handle)
    (addresses : ∀ handle, after.address? handle = before.address? handle) {upper lower : Handle}
    {index : Nat} (child : before.child? upper index = some lower)
    (left : after.children upper = (before.children upper).eraseIdx index) {node : Node}
    {above : Address} (carried : before.node? lower = some node)
    (addressed : before.address? upper = some above) :
    Address.step node index above ∈
        Extraction.leftAddresses (Place.top (grown.map Entry.node)) ↔
      before.followedAlike lower = true := by
  have next : after.child? upper index = before.child? upper (index + 1) := by
    rw [child?, child?, left, List.getElem?_eraseIdx, if_neg (lt_irrefl index)]
  rw [afterSingle.mem_addresses, followed_alike_iff beforeSingle.unique child carried]
  constructor
  · rintro ⟨other, place, successor, present, parent, found, presentCarried, parentAddress, same⟩
    obtain ⟨rfl, sameKind, sameValue, rfl⟩ := Address.child.inj same
    obtain rfl := beforeSingle.same_handle (addresses other ▸ parentAddress) addressed
    exact ⟨successor, present, next ▸ found, nodes successor ▸ presentCarried,
      (Node.agrees_iff _ _).mpr ⟨sameKind.symm, sameValue.symm⟩⟩
  · rintro ⟨successor, present, found, presentCarried, agree⟩
    obtain ⟨sameKind, sameValue⟩ := (Node.agrees_iff _ _).mp agree
    refine ⟨upper, index, successor, present, above, next ▸ found,
      nodes successor ▸ presentCarried, addresses upper ▸ addressed, ?_⟩
    rw [Address.step, Address.step, sameKind, sameValue]

/-- Among the slots that another tree lacks, a node with a parent has one if the other tree lacks
the address of its slot, and none otherwise. -/
theorem carried_count (single : Single document whole) {upper lower : Handle} {index : Nat}
    (child : document.child? upper index = some lower) {node : Node} {id : String}
    (carried : document.node? lower = some node) (nodeId : node.id? = some id) {above : Address}
    (addressed : document.address? upper = some above) (others : Place Node) :
    (Extraction.without (Extraction.leftSlots (Place.top (whole.map Entry.node)))
        (Extraction.leftSlots others)).countP (Extraction.carries id) =
      if Address.step node index above ∈ Extraction.leftAddresses others then 0 else 1 := by
  obtain ⟨slot, slotted, address⟩ := slot_of_child single.unique child carried addressed
  obtain ⟨place, listed, slotted, found⟩ := single.place_of_slot slotted
  obtain rfl := Option.some.inj (found.symm.trans carried)
  have apart := Slot.left_positional.tells_apart single.distinct
    fun other _ => Address.of_place_leads other
  rw [← address]
  refine Extraction.difference_carries Slot.left_place apart listed slotted
    (fun other otherListed => ?_) _
  constructor
  · intro otherId
    exact single.distinct.same_place otherListed listed otherId nodeId
  · rintro rfl
    exact nodeId

end Single

end Document

namespace Extraction

open Document Editing

/-- Whether a script reports a subtree as moved: it has one move of the node at the top, and no
deletion or insertion of any node of the subtree. -/
def ReportsMove (script : List Edit) (subtree : SyntaxTree) : Prop :=
  (∃ id, subtree.label.id? = some id ∧ script.countP (Edit.concerns 'M' id) = 1) ∧
    ∀ id ∈ subtree.ids,
      script.countP (Edit.concerns 'D' id) = 0 ∧ script.countP (Edit.concerns 'I' id) = 0

variable {before after : Document} {whole grown : Tree Entry} {node source target : Handle}
  {old new : Nat}

/-- Giving a node of a tree another parent leaves a tree with the same nodes and the same top, and
the script compares the slots that both trees have on their own. -/
theorem by_id_added {tree : SyntaxTree} (distinct : tree.DistinctIds) {index : Nat}
    {relation? : Option String} (placed : (ofTree tree).parent? node = some source)
    (clear : (ofTree tree).addFault? target index relation? node = none) (relation : String) :
    let after := ((ofTree tree).detach node).attach target index relation node
    ∃ grown mapping, Single after grown ∧ (grown.map Entry.node).preorder.Perm tree.preorder ∧
      grown.label = (withHandles 0 tree).label ∧
      after.tree? after.root = some (grown.map Entry.node) ∧
      byId (Place.top tree) (Place.top (grown.map Entry.node)) =
        .ok (withCorrespondence (Place.top tree) (Place.top (grown.map Entry.node)) mapping) ∧
      rightSlots mapping (Place.top (grown.map Entry.node)) =
        leftSlots (Place.top (grown.map Entry.node)) := by
  intro after
  obtain ⟨grown, single, shared, label⟩ := (single_of_tree distinct).add placed clear relation
  rw [without_handles] at shared
  have root : grown.label.handle = after.root := by
    rw [label, attach_root, detach_root]
    exact of_tree_top tree
  obtain ⟨mapping, extracted, own⟩ := by_id_own distinct single.distinct
    fun other member _ => shared.mem_iff.mp member
  exact ⟨grown, mapping, single, shared, label, single.tree_of_root root, extracted, own⟩

/-- A relocated node has given up a slot unless the sibling behind it looked the same, and taken up
a slot unless the sibling that is behind it now looks the same. -/
theorem relocated_counts (beforeSingle : Single before whole) (afterSingle : Single after grown)
    (relocated : Relocated before after node source target old new)
    (addresses : ∀ handle, after.address? handle = before.address? handle) {carried : Node}
    {id : String} (found : before.node? node = some carried) (nodeId : carried.id? = some id) :
    (without (leftSlots (Place.top (whole.map Entry.node)))
        (leftSlots (Place.top (grown.map Entry.node)))).countP (carries id) =
        (if before.followedAlike node = true then 0 else 1) ∧
      (without (leftSlots (Place.top (grown.map Entry.node)))
        (leftSlots (Place.top (whole.map Entry.node)))).countP (carries id) =
        if after.followedAlike node = true then 0 else 1 := by
  have afterFound := (relocated.nodes node).trans found
  obtain ⟨above, sourceAddress⟩ := address_of_parent beforeSingle.unique relocated.left
  obtain ⟨below, targetAddress⟩ := address_of_parent afterSingle.unique relocated.entered
  rw [beforeSingle.carried_count relocated.left found nodeId sourceAddress,
    afterSingle.carried_count relocated.entered afterFound nodeId targetAddress]
  have vacated := beforeSingle.vacated afterSingle relocated.nodes addresses relocated.left
    relocated.leftRest found sourceAddress
  have entered := afterSingle.vacated beforeSingle relocated.symm.nodes
    (fun handle => (addresses handle).symm) relocated.entered relocated.enteredRest afterFound
    targetAddress
  simp only [vacated, entered, and_self]

/-- A node whose parent is neither the old nor the new parent of the relocated one gives up no slot
and takes up none. -/
theorem kept_counts (beforeSingle : Single before whole) (afterSingle : Single after grown)
    (relocated : Relocated before after node source target old new)
    (addresses : ∀ handle, after.address? handle = before.address? handle) {upper lower : Handle}
    {index : Nat} (child : before.child? upper index = some lower) (notSource : upper ≠ source)
    (notTarget : upper ≠ target) {id : String} (carried : before.id? lower = some id) :
    (without (leftSlots (Place.top (whole.map Entry.node)))
        (leftSlots (Place.top (grown.map Entry.node)))).countP (carries id) = 0 ∧
      (without (leftSlots (Place.top (grown.map Entry.node)))
        (leftSlots (Place.top (whole.map Entry.node)))).countP (carries id) = 0 := by
  have kept := relocated.kept child notSource notTarget
  obtain ⟨node, found, nodeId⟩ := Option.bind_eq_some_iff.mp carried
  obtain ⟨above, addressed⟩ := address_of_parent beforeSingle.unique child
  have afterFound := (relocated.nodes lower).trans found
  have afterAddressed := (addresses upper).trans addressed
  rw [beforeSingle.carried_count child found nodeId addressed,
    afterSingle.carried_count kept afterFound nodeId afterAddressed,
    if_pos ((afterSingle.mem_addresses _).mpr ⟨upper, index, lower, node, above, kept, afterFound,
      afterAddressed, rfl⟩),
    if_pos ((beforeSingle.mem_addresses _).mpr ⟨upper, index, lower, node, above, child, found,
      addressed, rfl⟩)]
  exact ⟨rfl, rfl⟩

/-- What hangs below a relocated node gives up no slot and takes up none: the old parent does not
hang below the node, because it has stood above it, and the new one does not either. -/
theorem relocated_keeps_below (beforeSingle : Single before whole)
    (afterSingle : Single after grown)
    (relocated : Relocated before after node source target old new)
    (addresses : ∀ handle, after.address? handle = before.address? handle) {index : Nat}
    {relation? : Option String} (clear : before.addFault? target index relation? node = none)
    {lower : Handle} (hangs : before.Hangs node lower) (different : lower ≠ node) {id : String}
    (carried : before.id? lower = some id) :
    (without (leftSlots (Place.top (whole.map Entry.node)))
        (leftSlots (Place.top (grown.map Entry.node)))).countP (carries id) = 0 ∧
      (without (leftSlots (Place.top (grown.map Entry.node)))
        (leftSlots (Place.top (whole.map Entry.node)))).countP (carries id) = 0 := by
  have unique := beforeSingle.unique
  obtain same | ⟨upper, above, child⟩ := hangs.cases_tail
  · exact absurd same different
  obtain ⟨place, placed⟩ := List.getElem?_of_mem child
  refine kept_counts beforeSingle afterSingle relocated addresses placed ?_ ?_ carried
  · rintro rfl
    have higher := depth_hangs unique above
    have deeper := depth_child unique (List.mem_of_getElem? relocated.left)
    omega
  · rintro rfl
    obtain ⟨-, present, apart, -⟩ := add_fault_none clear
    rw [ancestor_of_hangs unique present above] at apart
    cases apart

/-- What is said of a node that is given another parent, in a tree where every node has an id of its
own, and of the nodes below it. The node has given up a slot unless the sibling behind it looked the
same, and has taken one up unless the sibling behind it looks the same now; if it has done both it
is moved, and otherwise it is deleted, inserted or not mentioned. The nodes below it are not
mentioned.

By `script_counts` the edits that concern an id are counted by the slots that are taken out and in.
So it is enough to count the addresses with the id that are given up on either side: for the node
itself it depends on the sibling behind it, for the nodes below it nothing changes. -/
theorem relocation_counts (tree : SyntaxTree) (named : ∀ node ∈ tree.preorder, node.id?.isSome)
    (distinct : tree.DistinctIds) {index : Nat} {relation? : Option String}
    (placed : (ofTree tree).parent? node = some source) (elsewhere : target ≠ source)
    (moved : perform (addChildAt target index relation? node) (ofTree tree) = (.ok ⟨⟩, after)) :
    ∃ subtree changed script id, (ofTree tree).tree? node = some subtree ∧
      after.tree? after.root = some changed ∧
      byId (Place.top tree) (Place.top changed) = .ok script ∧
      subtree.label.id? = some id ∧
      (let givenUp := if (ofTree tree).followedAlike node = true then 0 else 1
        let takenUp := if after.followedAlike node = true then 0 else 1
        script.countP (Edit.concerns 'M' id) = min givenUp takenUp ∧
          script.countP (Edit.concerns 'D' id) = givenUp - takenUp ∧
          script.countP (Edit.concerns 'I' id) = takenUp - givenUp) ∧
      ∀ lower ∈ subtree.ids, lower ≠ id →
        script.countP (Edit.concerns 'M' lower) = 0 ∧
          script.countP (Edit.concerns 'D' lower) = 0 ∧
          script.countP (Edit.concerns 'I' lower) = 0 := by
  have identified := identified_of_tree named distinct
  have unique := identified.unique
  rw [perform_add_child_at] at moved
  cases clear : (ofTree tree).addFault? target index relation? node with
  | some fault => simp [clear] at moved
  | none =>
    simp only [clear, Prod.mk.injEq, true_and] at moved
    obtain ⟨old, relocated⟩ := add_relocates unique clear _ placed elsewhere
    obtain ⟨grown, mapping, afterSingle, shared, -, found, extracted, own⟩ :=
      by_id_added distinct placed clear _
    rw [moved] at relocated afterSingle found
    have afterIdentified := afterSingle.identified fun other member =>
      named other (shared.mem_iff.mp member)
    have counts (other : String) :=
      script_counts (Place.top tree) (Place.top (grown.map Entry.node)) mapping other
    simp only [own] at counts
    have addresses (handle : Handle) : after.address? handle = (ofTree tree).address? handle := by
      rw [afterIdentified.address_of_node, identified.address_of_node, id?, id?, relocated.nodes]
    obtain ⟨carried, id, nodeFound, nodeId⟩ := identified.id_of_child relocated.left
    have nodeCounts := relocated_counts identified.single afterSingle relocated addresses nodeFound
      nodeId
    rw [without_handles] at nodeCounts
    obtain ⟨place, placeFound, rfl⟩ := Option.map_eq_some_iff.mp nodeFound
    have taken : (ofTree tree).tree? node = some (place.tree.map Entry.node) := by
      rw [tree?, placeFound]
      rfl
    refine ⟨_, _, _, id, taken, found, extracted, ?_, ?_,
      fun other inside different => ?_⟩
    · rw [Tree.label_map]
      exact nodeId
    · simpa only [nodeCounts.1, nodeCounts.2] using counts id
    · obtain ⟨lower, hangs, lowerId⟩ := handle_of_id unique taken inside
      have below : lower ≠ node := by
        rintro rfl
        rw [id?, node?, placeFound] at lowerId
        exact different (Option.some.inj (lowerId.symm.trans nodeId))
      have lowerCounts :=
        relocated_keeps_below identified.single afterSingle relocated addresses clear hangs below
          lowerId
      rw [without_handles] at lowerCounts
      simpa only [lowerCounts.1, lowerCounts.2, Nat.min_self, Nat.sub_self] using counts other

/-- A node that is given another parent, in a tree where every node has an id of its own, is
reported as one move, and nothing of its subtree as deleted or inserted, if and only if neither the
sibling that stood behind it nor the one that does now has its kind and value.

Of the four cases, according to the two siblings, only one gives a single move and nothing else. -/
theorem relocation_reported_unless_alike (tree : SyntaxTree)
    (named : ∀ node ∈ tree.preorder, node.id?.isSome) (distinct : tree.DistinctIds)
    {node source target : Handle} {index : Nat} {relation? : Option String} {after : Document}
    (placed : (ofTree tree).parent? node = some source) (elsewhere : target ≠ source)
    (moved : perform (addChildAt target index relation? node) (ofTree tree) = (.ok ⟨⟩, after)) :
    ∃ subtree changed script, (ofTree tree).tree? node = some subtree ∧
      after.tree? after.root = some changed ∧
      byId (Place.top tree) (Place.top changed) = .ok script ∧
      (ReportsMove script subtree ↔
        (ofTree tree).followedAlike node = false ∧ after.followedAlike node = false) := by
  obtain ⟨subtree, changed, script, id, taken, left, extracted, topId, nodeCounts, lowerCounts⟩ :=
    relocation_counts tree named distinct placed elsewhere moved
  refine ⟨subtree, changed, script, taken, left, extracted, ?_⟩
  obtain ⟨moves, deletions, insertions⟩ := nodeCounts
  constructor
  · rintro ⟨⟨other, otherId, once⟩, -⟩
    obtain rfl : id = other := Option.some.inj (topId.symm.trans otherId)
    rw [moves] at once
    cases before : (ofTree tree).followedAlike node <;>
      cases behind : after.followedAlike node <;> simp [before, behind] at once ⊢
  · rintro ⟨before, behind⟩
    simp only [before, behind, Bool.false_eq_true, ↓reduceIte] at moves deletions insertions
    refine ⟨⟨id, topId, moves⟩, fun other inside => ?_⟩
    by_cases same : other = id
    · rw [same]
      exact ⟨deletions, insertions⟩
    · exact (lowerCounts other inside same).2

/-- A call that is taken from one block to the other, with the literal below it, is reported as one
move. -/
theorem call_between_blocks_reported :
    let tree : SyntaxTree := .node { Node.bare "script" with id? := some "r" }
      [("0", .node { Node.bare "block" with id? := some "a" }
          [("0", .node { Node.bare "call" with id? := some "x" }
            [("0", .leaf { Node.bare "literal" with id? := some "l" })])]),
        ("1", .leaf { Node.bare "block" with id? := some "b" })]
    ∃ after subtree changed script,
      perform (addChildAt 4 0 none 2) (ofTree tree) = (.ok ⟨⟩, after) ∧
      (ofTree tree).tree? 2 = some subtree ∧ after.tree? after.root = some changed ∧
      byId (Place.top tree) (Place.top changed) = .ok script ∧ ReportsMove script subtree := by
  intro tree
  have moved : perform (addChildAt 4 0 none 2) (ofTree tree) =
      (.ok ⟨⟩, (perform (addChildAt 4 0 none 2) (ofTree tree)).2) :=
    Prod.ext (by decide +kernel) rfl
  obtain ⟨subtree, changed, script, taken, left, extracted, reported⟩ :=
    relocation_reported_unless_alike tree (by decide) (by decide)
      (show (ofTree tree).parent? 2 = some 1 by decide +kernel) (by decide) moved
  exact ⟨_, subtree, changed, script, moved, taken, left, extracted,
    reported.mpr ⟨by decide +kernel, by decide +kernel⟩⟩

/-- Of two calls in a block the first one is put behind the block. The second call takes over its
slot, so the first one is reported as inserted and not as moved. -/
theorem call_reported_as_insertion :
    let tree : SyntaxTree := .node { Node.bare "script" with id? := some "r" }
      [("0", .node { Node.bare "block" with id? := some "p" }
          [("0", .leaf { Node.bare "call" with id? := some "x" }),
            ("1", .leaf { Node.bare "call" with id? := some "y" })])]
    (∀ node ∈ tree.preorder, node.id?.isSome) ∧ tree.DistinctIds ∧
    (ofTree tree).parent? 2 = some 1 ∧
    ∃ after subtree changed script,
      perform (addChildAt 0 1 (some "1") 2) (ofTree tree) = (.ok ⟨⟩, after) ∧
      (ofTree tree).tree? 2 = some subtree ∧ after.tree? after.root = some changed ∧
      byId (Place.top tree) (Place.top changed) = .ok script ∧
      script.countP (Edit.concerns 'M' "x") = 0 ∧ script.countP (Edit.concerns 'I' "x") = 1 ∧
      ¬ ReportsMove script subtree := by
  intro tree
  have moved : perform (addChildAt 0 1 (some "1") 2) (ofTree tree) =
      (.ok ⟨⟩, (perform (addChildAt 0 1 (some "1") 2) (ofTree tree)).2) :=
    Prod.ext (by decide +kernel) rfl
  refine ⟨by decide, by decide, by decide +kernel, _,
    .leaf { Node.bare "call" with id? := some "x" },
    .node { Node.bare "script" with id? := some "r" }
      [("0", .node { Node.bare "block" with id? := some "p" }
          [("1", .leaf { Node.bare "call" with id? := some "y" })]),
        ("1", .leaf { Node.bare "call" with id? := some "x" })],
    _, moved, by rfl, by rfl, rfl, by decide +kernel, by decide +kernel, fun reported => ?_⟩
  have once := (reported.2 "x" (by decide)).2
  revert once
  decide +kernel

end Extraction

end TreeDelta
