import TreeDelta.Proofs.Document.AddedChild
import TreeDelta.Proofs.Document.Replacement

/-!
# The whole of a replacement

Two things speak against putting one node in place of another: one of the nodes hangs below the
other, or both have a child with the same key. Of several such keys the first one among the children
of the node is told. When nothing speaks against it, the other node takes over all that says where
the node stands and what hangs below it. The node is left alone, and of all other nodes only the
parents and the children of the two notice anything.
-/

namespace TreeDelta.Document

open Editing

/-- Whether a key is the first one among those of the children of a node that a child of another
node has as well. -/
def FirstShared (document : Document) (node other : Handle) (relation : String) : Prop :=
  ∃ former later, document.relations node = former ++ relation :: later ∧
    relation ∈ document.relations other ∧ ∀ key ∈ former, key ∉ document.relations other

/-- What can be said against putting one node in place of another, or that nothing can. -/
inductive ReplacingRefused (document : Document) (node other : Handle) : Option Fault → Prop where
  | cycle (line : document.InLine node other) :
      ReplacingRefused document node other (some (.violation .wouldCycle))
  | shared {relation : String} (apart : ¬ document.InLine node other)
      (first : document.FirstShared node other relation) :
      ReplacingRefused document node other (some (.violation (.relationInUse relation)))
  | clear (apart : ¬ document.InLine node other)
      (free : (document.relations node).Disjoint (document.relations other)) :
      ReplacingRefused document node other none

/-- One node has been put in place of another, and nothing else has changed. -/
structure Replaced (before after : Document) (node other : Handle) : Prop where
  /-- The other node is the root if the node was. -/
  root : after.root = if before.root = node then other else before.root
  /-- No node has been made or lost. -/
  handles : after.handles.Perm before.handles
  /-- Every node carries what it has carried. -/
  nodes : ∀ handle, after.node? handle = before.node? handle
  /-- The former parent of the other node has lost it, if it is not the parent of the node. -/
  left : ∀ upper, before.parent? other = some upper → before.parent? node ≠ some upper →
    after.children upper = before.childrenBesides upper other
  /-- The parent of the node has its other children, with the other node in place of the node. -/
  entered : ∀ upper, before.parent? node = some upper →
    after.children upper = (before.childrenBesides upper other).map (instead node other)
  /-- Any other node than these and the two has its children. -/
  others : ∀ upper, upper ≠ node → upper ≠ other → before.parent? other ≠ some upper →
    before.parent? node ≠ some upper → after.children upper = before.children upper
  /-- The other node has the children of the node behind its own. -/
  received : after.children other = before.children other ++ before.children node
  /-- The node has no children. -/
  childless : after.children node = []
  /-- The other node has the parent of the node, or none if the node had none. -/
  parent : after.parent? other = before.parent? node
  /-- The other node has the key of the node, or none if the node had none. -/
  key : after.relation? other = before.relation? node
  /-- The node has no parent. -/
  parentless : after.parent? node = none
  /-- The node has no key. -/
  keyless : after.relation? node = none
  /-- The children of the node have the other node as their parent. -/
  adopted : ∀ handle, before.parent? handle = some node → after.parent? handle = some other
  /-- Any other node has its parent. -/
  parents : ∀ handle, handle ≠ node → handle ≠ other → before.parent? handle ≠ some node →
    after.parent? handle = before.parent? handle
  /-- Any other node than the two has its key. -/
  keys : ∀ handle, handle ≠ node → handle ≠ other → after.relation? handle = before.relation? handle

variable {document : Document} {node other : Handle}

/-! ### What the nodes carry -/

/-- Taking a node out leaves what the nodes carry. -/
theorem detach_nodes (unique : document.handles.Nodup) (taken handle : Handle) :
    (document.detach taken).node? handle = document.node? handle :=
  nodes_of_rows unique (Row.without_entry taken) (detach_rows unique taken) handle

/-- Moving branches leaves what the nodes carry. -/
theorem transfer_nodes (unique : document.handles.Nodup) {source target : Handle}
    (sourcePresent : source ∈ document.handles) (targetPresent : target ∈ document.handles)
    (outside : ¬ document.Hangs source target) (handle : Handle) :
    (document.transferBranches source target).node? handle = document.node? handle :=
  nodes_of_rows unique (fun row => by simp)
    (transfer_table unique sourcePresent targetPresent outside) handle

/-- Giving the slot of a node to another one leaves what the nodes carry. -/
theorem WellFormed.slot_nodes (wellFormed : document.WellFormed)
    (clear : document.replaceFault? node other = none) (handle : Handle) :
    (perform (giveSlot node other) (document.detach other)).2.node? handle =
      document.node? handle := by
  have without := wellFormed.detach other
  rw [perform_give_slot, ← detach_nodes wellFormed.handlesDiffer other]
  split
  · next parent index relation parentFound indexFound relationFound =>
    obtain ⟨child, ready⟩ := wellFormed.slot_given clear parentFound indexFound relationFound
    simp only [perform_remove_child, child, perform_add_child_at, ready]
    rw [add_nodes (without.detach node).handlesDiffer ready, detach_nodes without.handlesDiffer]
  · rfl

/-- Putting one node in place of another leaves what the nodes carry. -/
theorem WellFormed.replace_nodes (wellFormed : document.WellFormed) (different : node ≠ other)
    (clear : document.replaceFault? node other = none) (handle : Handle) :
    (perform (replaceWith node other) document).2.node? handle = document.node? handle := by
  have slotted := wellFormed.slotted node other
  obtain ⟨nodeLeft, otherLeft, outside⟩ := slotted.movable wellFormed.handlesDiffer clear
  have moved := transfer_nodes slotted.wellFormed.handlesDiffer nodeLeft otherLeft outside handle
  rw [wellFormed.replace_left different clear]
  exact moved.trans (wellFormed.slot_nodes clear handle)

/-! ### The whole operation -/

/-- The children of a node besides another one are told by the links that do not lead to it. -/
theorem children_besides_eq (document : Document) (upper other : Handle) :
    document.childrenBesides upper other =
      ((document.links upper).filter fun link => link.2 ≠ other).map Prod.snd := by
  rw [childrenBesides, children_eq, List.filter_map]
  rfl

/-- When one node has been put in place of another, any third node has its other children, with the
other node in place of the node. -/
theorem WellFormed.replace_children (wellFormed : document.WellFormed) (different : node ≠ other)
    (clear : document.replaceFault? node other = none) {upper : Handle} (notNode : upper ≠ node)
    (notOther : upper ≠ other) :
    (perform (replaceWith node other) document).2.children upper =
      (document.childrenBesides upper other).map (instead node other) := by
  rw [children_eq, wellFormed.links_moved different clear, if_neg notOther, if_neg notNode,
    linksInstead, relinked_handles, children_besides_eq]

/-- Nodes among which the node is not stay where they are. -/
theorem instead_absent {handles : List Handle} (absent : node ∉ handles) (other : Handle) :
    handles.map (instead node other) = handles := by
  conv_rhs => rw [← List.map_id handles]
  exact List.map_congr_left fun handle member =>
    instead_else other fun same => absent (same ▸ member)

/-- A parent that is not the node stays the parent. -/
theorem instead_parent {parent? : Option Handle} (notNode : parent? ≠ some node) (other : Handle) :
    parent?.map (instead node other) = parent? := by
  cases parent? with
  | none => rfl
  | some parent =>
    rw [Option.map_some, instead_else other fun same => notNode (congrArg some same)]

/-- When nothing speaks against it, one node is put in place of another.

A parent of either node is neither of the two, because they are not in line. So the children of a
node fall into three kinds: those of the node, which are gone, those of the other one, which has
received them, and those of all others, where the node's name is exchanged. Each field is one of
these facts or its counterpart for parents and keys. -/
theorem WellFormed.replaced (wellFormed : document.WellFormed) (different : node ≠ other)
    (clear : document.replaceFault? node other = none) :
    Replaced document (perform (replaceWith node other) document).2 node other := by
  have unique := wellFormed.handlesDiffer
  have handles := wellFormed.replace_handles different clear
  have parentless := wellFormed.replace_parentless different clear
  have children {upper : Handle} (notNode : upper ≠ node) (notOther : upper ≠ other) :=
    wellFormed.replace_children different clear notNode notOther
  have third {upper : Handle}
      (above : document.parent? node = some upper ∨ document.parent? other = some upper) :
      upper ≠ node ∧ upper ≠ other := by
    simp only [parent_iff unique] at above
    refine not_or.mp fun either => ?_
    obtain ⟨nodeAbsent, otherAbsent⟩ := apart_children unique (replace_apart unique clear) either
    exact above.elim nodeAbsent otherAbsent
  constructor
  case root => exact wellFormed.replace_root different clear
  case handles => exact handles
  case nodes => exact wellFormed.replace_nodes different clear
  case left =>
    intro upper former notParent
    obtain ⟨notNode, notOther⟩ := third (.inr former)
    rw [children notNode notOther, instead_absent]
    exact fun member => notParent ((parent_iff unique _ _).mpr (List.mem_of_mem_filter member))
  case entered =>
    intro upper parent
    obtain ⟨notNode, notOther⟩ := third (.inl parent)
    exact children notNode notOther
  case others =>
    intro upper notNode notOther notFormer notParent
    rw [ne_eq, parent_iff unique] at notFormer notParent
    rw [children notNode notOther, childrenBesides, filter_absent notFormer,
      instead_absent notParent]
  case received =>
    rw [children_eq, wellFormed.links_received different clear, List.map_append, ← children_eq,
      ← children_eq]
  case childless =>
    rw [children_eq, wellFormed.links_moved different clear, if_neg different, if_pos rfl,
      List.map_nil]
  case parent =>
    have notOwn : document.parent? node ≠ some node := fun above => (third (.inl above)).1 rfl
    have parent := wellFormed.replace_parent different clear different
    rwa [instead_node, instead_parent notOwn] at parent
  case key =>
    have key := wellFormed.replace_relation different clear different
    rwa [instead_node] at key
  case parentless => exact parentless
  case keyless => exact relation_none (handles.nodup_iff.mpr unique) parentless
  case adopted =>
    intro handle below
    have notNode : handle ≠ node := fun same => (third (.inl (same ▸ below))).1 rfl
    have notOther : handle ≠ other := fun same => (third (.inr (same ▸ below))).1 rfl
    have parent := wellFormed.replace_parent different clear notOther
    rwa [instead_else other notNode, below, Option.map_some, instead_node] at parent
  case parents =>
    intro handle notNode notOther elsewhere
    have parent := wellFormed.replace_parent different clear notOther
    rwa [instead_else other notNode, instead_parent elsewhere] at parent
  case keys =>
    intro handle notNode notOther
    have key := wellFormed.replace_relation different clear notOther
    rwa [instead_else other notNode] at key

/-- The first key that a child of the other node has as well is found by asking for each in turn. -/
theorem first_shared_iff {relation : String} :
    document.FirstShared node other relation ↔
      (document.relations node).find? (fun key => (document.relations other).contains key) =
        some relation := by
  rw [List.find?_eq_some_iff_append]
  constructor
  · rintro ⟨former, later, keys, used, unused⟩
    exact ⟨by simpa using used, former, later, keys, by simpa using unused⟩
  · rintro ⟨used, former, later, keys, unused⟩
    exact ⟨former, later, keys, by simpa using used, by simpa using unused⟩

/-- Nodes that share a key have keys that are not apart. -/
theorem FirstShared.not_disjoint {relation : String}
    (first : document.FirstShared node other relation) :
    ¬ (document.relations node).Disjoint (document.relations other) := by
  obtain ⟨former, later, keys, used, -⟩ := first
  exact fun free => free (by simp [keys]) used

/-- The questions that are asked before one node is put in place of another come to one of the three
answers. -/
theorem WellFormed.replacing_refused (wellFormed : document.WellFormed)
    (nodeHere : node ∈ document.handles) (otherHere : other ∈ document.handles) :
    ReplacingRefused document node other (document.replaceFault? node other) := by
  have unique := wellFormed.handlesDiffer
  have nodeHas := (has_iff _).mpr nodeHere
  have otherHas := (has_iff _).mpr otherHere
  simp only [replaceFault?, nodeHas, otherHas, Bool.not_true, Bool.false_eq_true, if_false,
    Bool.or_eq_true]
  split
  · next above =>
    exact .cycle (above.imp (hangs_of_ancestor unique) (hangs_of_ancestor unique))
  next notAbove =>
  have apart : ¬ document.InLine node other := fun line => notAbove
    (line.imp (ancestor_of_hangs unique nodeHere) (ancestor_of_hangs unique otherHere))
  cases found : (document.relations node).find? fun relation =>
      (document.relations other).contains relation with
  | some relation => exact .shared apart (first_shared_iff.mpr found)
  | none =>
    rw [List.find?_eq_none] at found
    exact .clear apart fun relation here there => found relation here (by simpa using there)

/-- In every document that can be reached, putting one node in place of another is refused as a
cycle if and only if one of the two hangs below the other. Otherwise it is refused for a key if and
only if it is the first key among the children of the node that a child of the other node has as
well. Otherwise it succeeds: the other node has the parent, the key and the children of the node,
these behind its own, the node has none of them, and everything else is as it was.

Whether the replacement is refused, and why, is decided before anything changes. `replacing_refused`
has one case for each answer; in each of them the outcome is fixed and the conditions of the others
fail. -/
theorem node_replaced_or_refused (reached : Reachable document) (different : node ≠ other)
    (nodeHere : node ∈ document.handles) (otherHere : other ∈ document.handles) :
    let outcome := perform (replaceWith node other) document
    (outcome.1 = .error (.violation .wouldCycle) ↔ document.InLine node other) ∧
    (∀ relation, outcome.1 = .error (.violation (.relationInUse relation)) ↔
      ¬ document.InLine node other ∧ document.FirstShared node other relation) ∧
    (outcome.1 = .ok ⟨⟩ ↔ ¬ document.InLine node other ∧
      (document.relations node).Disjoint (document.relations other)) ∧
    (outcome.1 = .ok ⟨⟩ → Replaced document outcome.2 node other) := by
  intro outcome
  have wellFormed := reached.well_formed
  have refused := wellFormed.replacing_refused nodeHere otherHere
  have performed : outcome = _ := perform_replace_with node other document
  rw [if_neg different] at performed
  generalize answer : document.replaceFault? node other = fault? at refused performed
  cases refused with
  | cycle line =>
    have stopped : outcome.1 = .error (.violation .wouldCycle) := congrArg Prod.fst performed
    simp [stopped, line]
  | @shared key apart first =>
    have stopped : outcome.1 = .error (.violation (.relationInUse key)) :=
      congrArg Prod.fst performed
    have only (relation : String) : key = relation ↔ document.FirstShared node other relation := by
      rw [first_shared_iff] at first ⊢
      rw [first, Option.some_inj]
    simp [stopped, apart, first.not_disjoint, only]
  | clear apart free =>
    have done : outcome.1 = .ok ⟨⟩ := wellFormed.replace_succeeds answer
    have notShared (relation : String) : ¬ document.FirstShared node other relation :=
      fun first => first.not_disjoint free
    simpa [done, apart, free, notShared] using wellFormed.replaced different answer

/-- In a list of two items with a word each, the second item is put in place of the first. It
stands alone in the list then, under the key of the first, and has both words. -/
theorem second_item_for_first :
    ∃ document : Document, document.Reachable ∧ 1 ∈ document.handles ∧ 2 ∈ document.handles ∧
      document.children 0 = [1, 2] ∧ document.children 1 = [3] ∧ document.children 2 = [4] ∧
      document.relation? 1 = some "0" ∧ (perform (replaceWith 1 2) document).1 = .ok ⟨⟩ ∧
      (perform (replaceWith 1 2) document).2.children 0 = [2] ∧
      (perform (replaceWith 1 2) document).2.children 2 = [4, 3] ∧
      (perform (replaceWith 1 2) document).2.relation? 2 = some "0" ∧
      (perform (replaceWith 1 2) document).2.parent? 1 = none := by
  let operations : List Operation :=
    [.appendNew 0 none (Node.bare "item"), .appendNew 0 none (Node.bare "item"),
      .appendNew 1 (some "left") (Node.bare "word"), .appendNew 2 (some "right") (Node.bare "word")]
  let document := operations.foldl left (ofNode (Node.bare "list"))
  have reached : Reachable document :=
    List.foldlRecOn operations left (.made _) fun _ before operation _ => before.edited operation
  have firstHere : 1 ∈ document.handles := by decide +kernel
  have secondHere : 2 ∈ document.handles := by decide +kernel
  have children : document.children 1 = [3] ∧ document.children 2 = [4] := by decide +kernel
  have parent : document.parent? 1 = some 0 := by decide +kernel
  have key : document.relation? 1 = some "0" := by decide +kernel
  have others : document.childrenBesides 0 2 = [1] := by decide +kernel
  have succeeds : (perform (replaceWith 1 2) document).1 = .ok ⟨⟩ := by decide +kernel
  have replaced :=
    (node_replaced_or_refused reached (by decide) firstHere secondHere).2.2.2 succeeds
  refine ⟨document, reached, firstHere, secondHere, by decide +kernel, children.1, children.2, key,
    succeeds, ?_, ?_, replaced.key.trans key, replaced.parentless⟩
  · rw [replaced.entered 0 parent, others]
    rfl
  · rw [replaced.received, children.1, children.2]
    rfl

end TreeDelta.Document
