import TreeDelta.Proofs.Document.Refusals
import TreeDelta.Proofs.OneMove

/-!
# Moving the last child of a node

When the last child of a node is added behind the children of another one, no sibling changes its
index. If the child has an id, nothing below it is addressed from above it either, so every node
keeps its address, whether it has an id or is addressed by position. Of all slots only the child's
own is given up and taken up, and the whole script is its move.
-/

namespace TreeDelta

open Editing

namespace Document

/-- The last child of one node is the last child of another one in the second document. -/
structure LastRelocated (before after : Document) (node source target : Handle) (old new : Nat) :
    Prop extends Relocated before after node source target old new where
  lastLeft : before.childCount source = old + 1
  lastEntered : after.childCount target = new + 1

variable {before after : Document} {whole grown : Tree Entry} {node source target : Handle}
  {old new : Nat}

/-- Among the children of a node that has lost its last one the others are where they were. -/
theorem child_before_last {upper lower : Handle} {index last : Nat}
    (rest : after.children upper = (before.children upper).eraseIdx last)
    (count : before.childCount upper = last + 1) (child : before.child? upper index = some lower)
    (notLast : index ≠ last) : after.child? upper index = some lower := by
  have inside : index < before.childCount upper := (List.getElem?_eq_some_iff.mp child).1
  rw [child?, rest, List.getElem?_eraseIdx, if_pos (by omega)]
  exact child

/-- Behind the last child stands nothing that could look like it. -/
theorem not_followed_alike (unique : before.handles.Nodup) {upper lower : Handle} {last : Nat}
    (count : before.childCount upper = last + 1) (child : before.child? upper last = some lower) :
    before.followedAlike lower = false := by
  obtain ⟨contents, carried⟩ := node_of_child unique child
  rw [← Bool.not_eq_true, followed_alike_iff unique child carried]
  rintro ⟨next, -, beyond, -⟩
  have inside : last + 1 < before.childCount upper := (List.getElem?_eq_some_iff.mp beyond).1
  omega

/-- The last of the children of a node stands at the index before their number. -/
theorem child_at_last {upper lower : Handle}
    (last : (before.children upper).getLast? = some lower) :
    ∃ index, before.child? upper index = some lower ∧ before.childCount upper = index + 1 := by
  rw [List.getLast?_eq_getElem?] at last
  have inside := (List.getElem?_eq_some_iff.mp last).1
  exact ⟨_, last, by rw [childCount]; omega⟩

/-- A last child that comes to the end of other children is the last one there. -/
theorem Relocated.last
    (relocated : Relocated before after node source target old (before.childCount target))
    (count : before.childCount source = old + 1) :
    LastRelocated before after node source target old (before.childCount target) := by
  refine ⟨relocated, count, ?_⟩
  have inside : before.childCount target < after.childCount target :=
    (List.getElem?_eq_some_iff.mp relocated.entered).1
  have lengths : before.childCount target = after.childCount target - 1 := by
    rw [childCount, relocated.enteredRest, List.length_eraseIdx_of_lt inside, childCount]
  omega

/-- A last child with its own parent can be added behind the children of another node that does not
stand below it, and it is the last child there. -/
theorem add_last {document : Document} (unique : document.handles.Nodup)
    (child : document.child? source old = some node) (count : document.childCount source = old + 1)
    (present : document.has target = true) (elsewhere : target ≠ source)
    (apart : document.isAncestorOrSelf node target = false) :
    ∃ relation, document.addFault? target (document.childCount target) none node = none ∧
      perform (addChild target none node) document = (.ok ⟨⟩, (document.detach node).attach target
        (document.childCount target) relation node) ∧
      LastRelocated document ((document.detach node).attach target (document.childCount target)
        relation node) node source target old (document.childCount target) := by
  obtain ⟨placed, position⟩ := (child_iff unique).mp child
  obtain ⟨_, _, _, found⟩ := (child_at_iff unique).mp child
  have here : document.has node = true := by rw [has, found]; rfl
  have others : document.otherChildren target node = document.childCount target := by
    refine congrArg List.length (filter_absent fun again => elsewhere ?_)
    exact Option.some.inj (((parent_iff unique target node).mpr again).symm.trans placed)
  have clear : document.addFault? target (document.childCount target) none node = none :=
    add_fault_clear ((has_iff target).mp present) ((has_iff node).mp here) apart (by simp) others.ge
  refine ⟨_, clear, by rw [perform_add_child, others, perform_add_child_at, clear], ?_⟩
  obtain ⟨place, relocated⟩ := add_relocates unique clear
    (freshRelation ((document.detach node).relations target)) placed elsewhere
  obtain rfl : place = old := Option.some.inj
    (((child_iff unique).mp relocated.left).2.symm.trans position)
  exact relocated.last count

namespace LastRelocated

/-- Seen from the second document the node is the last child of its new parent, and has been moved
to the end of the children of its old one in the first. -/
theorem symm (relocated : LastRelocated before after node source target old new) :
    LastRelocated after before node target source new old :=
  ⟨relocated.toRelocated.symm, relocated.lastEntered, relocated.lastLeft⟩

/-- Every other child stays at its index below its parent. -/
theorem child_kept (relocated : LastRelocated before after node source target old new)
    {upper lower : Handle} {index : Nat} (child : before.child? upper index = some lower)
    (different : lower ≠ node) : after.child? upper index = some lower := by
  by_cases fromSource : upper = source
  · subst fromSource
    refine child_before_last relocated.leftRest relocated.lastLeft child ?_
    rintro rfl
    exact different (Option.some.inj (child.symm.trans relocated.left))
  · by_cases fromTarget : upper = target
    · subst fromTarget
      -- The children before are those afterwards without the last one, so the index is below it.
      rw [child?, relocated.enteredRest, List.getElem?_eraseIdx] at child
      split at child
      · exact child
      · have inside : index + 1 < after.childCount upper := (List.getElem?_eq_some_iff.mp child).1
        have count := relocated.lastEntered
        omega
    · exact relocated.kept child fromSource fromTarget

/-- No node changes its address: one without an id is not the moved one, so it is where it was below
its parent. -/
theorem addresses (relocated : LastRelocated before after node source target old new)
    (beforeSingle : Single before whole) (afterSingle : Single after grown)
    (label : grown.label = whole.label) {id : String} (named : before.id? node = some id)
    (handle : Handle) : after.address? handle = before.address? handle := by
  by_cases present : handle ∈ before.handles
  · have hangs := beforeSingle.hangs_below_top present
    clear present
    -- From the top down: below a parent that keeps its address, a child without an id keeps its own
    -- because its index is the same, and a child with an id in any case.
    induction hangs with
    | refl =>
      rw [beforeSingle.address_of_top, ← label]
      exact afterSingle.address_of_top
    | @tail upper lower _ child inductionHypothesis =>
      obtain ⟨index, child⟩ := List.getElem?_of_mem child
      obtain ⟨contents, carried⟩ := node_of_child beforeSingle.unique child
      have afterCarried := (relocated.nodes lower).trans carried
      cases lowerId : contents.id? with
      | some id =>
        rw [address_of_id ((id_of_node carried).trans lowerId),
          address_of_id ((id_of_node afterCarried).trans lowerId)]
      | none =>
        have different : lower ≠ node := by
          rintro rfl
          exact Option.some_ne_none id (named.symm.trans ((id_of_node carried).trans lowerId))
        obtain ⟨above, addressed⟩ := address_of_parent beforeSingle.unique child
        rw [address_of_child beforeSingle.unique child carried lowerId addressed]
        exact address_of_child afterSingle.unique (relocated.child_kept child different)
          afterCarried lowerId (inductionHypothesis.trans addressed)
  · have absent := node_absent present
    rw [address_absent absent, address_absent ((relocated.nodes handle).trans absent)]

/-- Of all addresses of slots only that of the moved node is given up. -/
theorem given_up_iff (relocated : LastRelocated before after node source target old new)
    (beforeSingle : Single before whole) (afterSingle : Single after grown)
    (addresses : ∀ handle, after.address? handle = before.address? handle) {contents : Node}
    {above : Address} (carried : before.node? node = some contents)
    (addressed : before.address? source = some above) (address : Address) :
    address ∈ Extraction.leftAddresses (Place.top (whole.map Entry.node)) ∧
        address ∉ Extraction.leftAddresses (Place.top (grown.map Entry.node)) ↔
      address = Address.step contents old above := by
  constructor
  · rintro ⟨here, gone⟩
    obtain ⟨upper, index, lower, found, parent, child, lowerCarried, parentAddress, rfl⟩ :=
      (beforeSingle.mem_addresses address).mp here
    by_cases same : lower = node
    · subst same
      obtain ⟨parentSame, indexSame⟩ := (child_iff beforeSingle.unique).mp child
      obtain ⟨parentOld, indexOld⟩ := (child_iff beforeSingle.unique).mp relocated.left
      obtain rfl := Option.some.inj (parentSame.symm.trans parentOld)
      obtain rfl := Option.some.inj (indexSame.symm.trans indexOld)
      rw [Option.some.inj (lowerCarried.symm.trans carried),
        Option.some.inj (parentAddress.symm.trans addressed)]
    · exact absurd ((afterSingle.mem_addresses _).mpr ⟨upper, index, lower, found, parent,
        relocated.child_kept child same, (relocated.nodes lower).trans lowerCarried,
        (addresses upper).trans parentAddress, rfl⟩) gone
  · rintro rfl
    refine ⟨(beforeSingle.mem_addresses _).mpr ⟨source, old, node, contents, above, relocated.left,
      carried, addressed, rfl⟩, ?_⟩
    rw [beforeSingle.vacated afterSingle relocated.nodes addresses relocated.left
      relocated.leftRest carried addressed,
      not_followed_alike beforeSingle.unique relocated.lastLeft relocated.left]
    exact Bool.false_ne_true

end LastRelocated

end Document

namespace Extraction

open Document

variable {before after : Document} {whole grown : Tree Entry} {node source target : Handle}
  {old new : Nat}

/-- If of all addresses of a tree others lack that of one place only, they lack its slot only. -/
theorem difference_single {slotOf : Place Node → Option Slot} {root : Place Node}
    (apart : Slot.TellsApart slotOf root) {place : Place Node} {slot : Slot}
    (listed : place ∈ root.preorder) (slotted : slotOf place = some slot) (others : List Slot)
    (only : ∀ address, address ∈ (root.preorder.filterMap slotOf).map Slot.address ∧
      address ∉ others.map Slot.address ↔ address = slot.address) :
    without (firstSlots [] (root.preorder.filterMap slotOf)) (firstSlots [] others) = [slot] := by
  have addresses : ((without (firstSlots [] (root.preorder.filterMap slotOf))
      (firstSlots [] others)).map Slot.address).Perm [slot.address] := by
    refine List.perm_iff_count.mpr fun address => ?_
    have same : slot.address = address ↔ address = slot.address := eq_comm
    rw [difference_count, List.count_singleton]
    simp only [only, beq_iff_eq, same]
  obtain ⟨kept, single, sameAddress⟩ := List.map_eq_singleton_iff.mp addresses.eq_singleton
  obtain ⟨other, otherListed, otherSlotted⟩ := slot_listed (single ▸ List.mem_singleton_self kept)
  obtain rfl := apart other otherListed place listed (by
    rw [otherSlotted, slotted, Option.map_some, Option.map_some, sameAddress])
  rw [single, Option.some.inj (otherSlotted.symm.trans slotted)]

/-- One slot that is given up and one that is taken up by a node with the same id are a move. -/
theorem single_move {given taken : Slot} {id : String} (givenId : given.place.label.id? = some id)
    (takenId : taken.place.label.id? = some id) :
    (matchMoves [given] [taken]).edits = [.move given taken] := by
  simp [matchMoves, match?, unmatched, carries, givenId, takenId, Script.edits]

/-- The slot of the moved node is the only one that is given up. -/
theorem last_given_up (relocated : LastRelocated before after node source target old new)
    (beforeSingle : Single before whole) (afterSingle : Single after grown)
    (addresses : ∀ handle, after.address? handle = before.address? handle) {contents : Node}
    {above : Address} (carried : before.node? node = some contents)
    (addressed : before.address? source = some above) :
    ∃ slot, before.slot? node = some slot ∧ slot.address = Address.step contents old above ∧
      slot.place.label = contents ∧
      without (leftSlots (Place.top (whole.map Entry.node)))
        (leftSlots (Place.top (grown.map Entry.node))) = [slot] := by
  obtain ⟨slot, slotted, address⟩ :=
    slot_of_child beforeSingle.unique relocated.left carried addressed
  obtain ⟨place, listed, placeSlot, found⟩ := beforeSingle.place_of_slot slotted
  have apart := Slot.left_positional.tells_apart beforeSingle.distinct
    fun other _ => Address.of_place_leads other
  refine ⟨slot, slotted, address, ?_, difference_single apart listed placeSlot _ ?_⟩
  · rw [Slot.left_place place slot placeSlot]
    exact Option.some.inj (found.symm.trans carried)
  · rw [address]
    exact relocated.given_up_iff beforeSingle afterSingle addresses carried addressed

/-- When a node with an id, the last child of its parent, is added behind the children of another
node that does not stand below it, in a tree without repeated ids, the script is the node's move and
nothing else. The move leads from the node's slot, at its old index below the address of its old
parent, to the slot behind the children that the new parent has had, below the address that the new
parent has in both trees.

The node is the last child both where it leaves and where it arrives, so no sibling changes its
index, and no address changes at all. Hence the only slot that is given up on either side is the
node's own: `last_given_up` says so of the document before, and of the one afterwards with the two
exchanged. Both slots have the same id, so they make one move. -/
theorem last_child_is_one_move (tree : SyntaxTree) (distinct : tree.DistinctIds)
    {node source target : Handle} {id : String}
    (last : ((ofTree tree).children source).getLast? = some node)
    (named : (ofTree tree).id? node = some id) (present : (ofTree tree).has target = true)
    (elsewhere : target ≠ source) (apart : (ofTree tree).isAncestorOrSelf node target = false) :
    ∃ after changed given taken contents index above below,
      perform (addChild target none node) (ofTree tree) = (.ok ⟨⟩, after) ∧
      after.tree? after.root = some changed ∧
      byId (Place.top tree) (Place.top changed) = .ok [.move given taken] ∧
      (ofTree tree).slot? node = some given ∧ after.slot? node = some taken ∧
      (ofTree tree).node? node = some contents ∧ (ofTree tree).index? node = some index ∧
      (ofTree tree).address? source = some above ∧
      given.address = Address.step contents index above ∧
      (ofTree tree).address? target = some below ∧ after.address? target = some below ∧
      taken.address = Address.step contents ((ofTree tree).childCount target) below := by
  have single := single_of_tree distinct
  have unique := single.unique
  obtain ⟨old, child, count⟩ := child_at_last last
  obtain ⟨placed, position⟩ := (child_iff unique).mp child
  obtain ⟨relation, clear, moved, relocated⟩ := add_last unique child count present elsewhere apart
  obtain ⟨grown, mapping, afterSingle, -, label, found, extracted, own⟩ :=
    by_id_added distinct placed clear relation
  generalize ((ofTree tree).detach node).attach target ((ofTree tree).childCount target) relation
    node = after at moved relocated afterSingle found
  have addresses := relocated.addresses single afterSingle label named
  obtain ⟨contents, carried⟩ := node_of_child unique relocated.left
  have contentsId := (id_of_node carried).symm.trans named
  have afterCarried := (relocated.nodes node).trans carried
  obtain ⟨above, sourceAddress⟩ := address_of_parent unique relocated.left
  obtain ⟨below, targetAddress⟩ := address_of_parent afterSingle.unique relocated.entered
  obtain ⟨given, givenSlot, givenAddress, givenLabel, givenUp⟩ :=
    last_given_up relocated single afterSingle addresses carried sourceAddress
  obtain ⟨taken, takenSlot, takenAddress, takenLabel, takenUp⟩ :=
    last_given_up relocated.symm afterSingle single (fun handle => (addresses handle).symm)
      afterCarried targetAddress
  refine ⟨after, _, given, taken, contents, old, above, below, moved, found, ?_, givenSlot,
    takenSlot, carried, position, sourceAddress, givenAddress,
    (addresses target).symm.trans targetAddress, targetAddress, takenAddress⟩
  rw [without_handles] at givenUp takenUp
  rw [extracted, withCorrespondence, own]
  simp only [givenUp, takenUp]
  exact congrArg _ (single_move (givenLabel ▸ contentsId) (takenLabel ▸ contentsId))

/-- A call that is the last of a block is put behind the literal of the next block. Neither the
blocks nor the literals have ids, and the move is the whole script. -/
theorem call_behind_literal_moved :
    let tree : SyntaxTree := .node (Node.bare "script")
      [("0", .node (Node.bare "block")
          [("0", .leaf (Node.bare "literal")),
            ("1", .node { Node.bare "call" with id? := some "x" }
              [("0", .leaf (Node.bare "literal"))])]),
        ("1", .node (Node.bare "block") [("0", .leaf (Node.bare "literal"))])]
    ∃ after changed given taken,
      perform (addChild 5 none 3) (ofTree tree) = (.ok ⟨⟩, after) ∧
      after.tree? after.root = some changed ∧
      byId (Place.top tree) (Place.top changed) = .ok [.move given taken] ∧
      given.address = .child 1 "call" none (.child 0 "block" none .top) ∧
      taken.address = .child 1 "call" none (.child 1 "block" none .top) := by
  intro tree
  obtain ⟨after, changed, given, taken, contents, index, above, below, moved, found, extracted, -,
      -, carried, position, sourceAddress, givenAddress, targetAddress, -, takenAddress⟩ :=
    last_child_is_one_move tree (by decide)
      (show ((ofTree tree).children 1).getLast? = some 3 by decide +kernel)
      (show (ofTree tree).id? 3 = some "x" by decide +kernel)
      (show (ofTree tree).has 5 = true by decide +kernel) (by decide) (by decide +kernel)
  obtain rfl : contents = { Node.bare "call" with id? := some "x" } :=
    Option.some.inj (carried.symm.trans (by decide +kernel))
  obtain rfl : index = 1 := Option.some.inj (position.symm.trans (by decide +kernel))
  obtain rfl : above = .child 0 "block" none .top :=
    Option.some.inj (sourceAddress.symm.trans (by decide +kernel))
  obtain rfl : below = .child 1 "block" none .top :=
    Option.some.inj (targetAddress.symm.trans (by decide +kernel))
  exact ⟨after, changed, given, taken, moved, found, extracted, givenAddress, takenAddress⟩

end Extraction

end TreeDelta
