import TreeDelta.Proofs.Document.Reachable

/-!
# Operations that stop

An operation that stops has been refused: it has looked for a reason before it touched anything.
Two operations change the document before the last step that could stop. Making and adding a node
puts the node into the document first, where it stays without a parent. Putting one node in place of
another frees the slot before it gives it away, but by then nothing can go wrong: the freed slot has
the index that it had, its key was that of one child only, and what hangs below a node was asked
before. So in either case every node that was there before is as it was.
-/

namespace TreeDelta.Document

open Editing

/-- One document says of every node of another one what the other says, and has the same root. -/
structure Untouched (before after : Document) : Prop where
  root : after.root = before.root
  parents : ∀ handle ∈ before.handles, after.parent? handle = before.parent? handle
  children : ∀ handle ∈ before.handles, after.children handle = before.children handle
  relations : ∀ handle ∈ before.handles, after.relation? handle = before.relation? handle
  nodes : ∀ handle ∈ before.handles, after.node? handle = before.node? handle

/-- A document says of its own nodes what it says. -/
theorem Untouched.refl (document : Document) : Untouched document document :=
  ⟨rfl, fun _ _ => rfl, fun _ _ => rfl, fun _ _ => rfl, fun _ _ => rfl⟩

variable {document : Document}

/-- All that is said of a node is read off its place. -/
theorem untouched_of_places {before after : Document} (root : after.root = before.root)
    (places : ∀ handle ∈ before.handles, after.place? handle = before.place? handle) :
    Untouched before after where
  root := root
  parents handle present := by rw [parent?, parent?, places handle present]
  children handle present := by rw [Document.children, Document.children, places handle present]
  relations handle present := by rw [relation?, relation?, places handle present]
  nodes handle present := by rw [node?, node?, places handle present]

/-- A tree that comes into a document stands behind the trees that are there, so every node is
found where it was. -/
theorem imported_place (tree : SyntaxTree) {handle : Handle} (present : handle ∈ document.handles) :
    (document.imported tree).place? handle = document.place? handle := by
  obtain ⟨place, found⟩ := place_of_handle present
  have places : (document.imported tree).places =
      document.places ++ (Place.top (withHandles document.next tree)).preorder := by
    simp [Document.places, imported]
  rw [place?, places, List.find?_append]
  rw [place?] at found ⊢
  rw [found, Option.some_or]

/-- Importing a tree changes nothing that is said of the nodes that are there. -/
theorem imported_untouched (document : Document) (tree : SyntaxTree) :
    Untouched document (document.imported tree) :=
  untouched_of_places rfl fun _ present => imported_place tree present

/-- Nothing speaks against adding a child when all that could has been ruled out. -/
theorem add_fault_clear {parent child : Handle} {index : Nat} {relation? : Option String}
    (parentHere : parent ∈ document.handles) (childHere : child ∈ document.handles)
    (apart : document.isAncestorOrSelf child parent = false)
    (untaken : ∀ relation ∈ relation?, ∀ other,
      document.childByRelation? parent relation = some other → other = child)
    (inside : index ≤ document.otherChildren parent child) :
    document.addFault? parent index relation? child = none := by
  have parentHas := (has_iff _).mpr parentHere
  have childHas := (has_iff _).mpr childHere
  have free : relation?.filter (fun relation =>
      (document.childByRelation? parent relation).any (· ≠ child)) = none := by
    rw [Option.filter_eq_none_iff]
    intro relation given taken
    cases found : document.childByRelation? parent relation with
    | none => simp [found] at taken
    | some other =>
      have same := untaken relation given other found
      simp [found, same] at taken
  simp only [addFault?, parentHas, childHas, apart, free]
  simpa using inside

/-- When a child has been taken out, nothing speaks against putting a node into its slot that the
parent does not hang below and that is not among the other children. -/
theorem WellFormed.slot_free (wellFormed : document.WellFormed) {node other parent : Handle}
    {index : Nat} {relation : String} (child : document.child? parent index = some node)
    (keyed : document.childByRelation? parent relation = some node)
    (otherHere : other ∈ document.handles) (apart : ¬ document.Hangs other parent)
    (absent : other ∉ (document.detach node).children parent) :
    (document.detach node).addFault? parent index (some relation) other = none := by
  have unique := wellFormed.handlesDiffer
  have freed := (wellFormed.detach node).handlesDiffer
  have handles := detach_handles unique node
  refine add_fault_clear ?_ (handles.mem_iff.mpr otherHere) ?_ ?_ ?_
  · exact handles.mem_iff.mpr (handle_of_link (link_of_lookup keyed))
  · by_contra above
    rw [Bool.not_eq_false] at above
    exact apart (hangs_detach unique (hangs_of_ancestor freed above))
  · intro key given taken takenFound
    obtain rfl := Option.some.inj given
    -- The key was that of the node alone, and the node is gone.
    have linked := link_of_lookup takenFound
    rw [detach_links unique] at linked
    obtain ⟨before, different⟩ := List.mem_filter.mp linked
    have again := lookup_child (wellFormed.relations_nodup parent) before
    rw [keyed] at again
    exact absurd (Option.some.inj again).symm (of_decide_eq_true different)
  · have member : node ∈ document.children parent := List.mem_of_getElem? child
    have inside : index < (document.children parent).length :=
      (List.getElem?_eq_some_iff.mp child).1
    have parts := (Named.split_named id (by simpa using children_nodup unique parent)
      member).length_eq
    rw [otherChildren, filter_absent absent, detach_children unique]
    simp only [id_eq, List.length_cons] at parts
    omega

/-- When nothing speaks against putting one node in place of another and the other has been taken
out, the first one is found in its slot, and once it has been taken out as well, nothing speaks
against adding the other there. -/
theorem WellFormed.slot_given (wellFormed : document.WellFormed) {node other : Handle}
    (clear : document.replaceFault? node other = none) {parent : Handle} {index : Nat}
    {relation : String} (parentFound : (document.detach other).parent? node = some parent)
    (indexFound : (document.detach other).index? node = some index)
    (relationFound : (document.detach other).relation? node = some relation) :
    (document.detach other).child? parent index = some node ∧
      ((document.detach other).detach node).addFault? parent index (some relation) other =
        none := by
  obtain ⟨nodeHere, otherHere, notBelow, notAbove, -⟩ := replace_fault_none clear
  have unique := wellFormed.handlesDiffer
  have without := wellFormed.detach other
  have withoutUnique := without.handlesDiffer
  -- The slot of the node, as its parent tells it.
  obtain ⟨place, _, indexPlaced, relationPlaced, -, found, keyed⟩ :=
    slot_of_parent withoutUnique (without.relations_nodup parent) parentFound
  obtain rfl : place = index := Option.some.inj (indexPlaced.symm.trans indexFound)
  obtain rfl := Option.some.inj (relationPlaced.symm.trans relationFound)
  have otherLeft := (detach_handles unique other).mem_iff.mpr otherHere
  refine ⟨found, without.slot_free found keyed otherLeft (fun above => ?_) ?_⟩
  · have child := (parent_iff withoutUnique _ _).mp parentFound
    rw [detach_children unique] at child
    have lower := (hangs_detach unique above).tail (List.mem_of_mem_filter child)
    rw [ancestor_of_hangs unique otherHere lower] at notAbove
    cases notAbove
  · rw [detach_children withoutUnique, detach_children unique]
    simp

/-- When nothing has spoken against putting one node in place of another, the slot is given to it
without a fault. -/
theorem WellFormed.slot_result (wellFormed : document.WellFormed) {node other : Handle}
    (clear : document.replaceFault? node other = none) :
    (perform (giveSlot node other) (document.detach other)).1 = .ok ⟨⟩ := by
  rw [perform_give_slot]
  split
  · next parent index relation parentFound indexFound relationFound =>
    obtain ⟨child, ready⟩ := wellFormed.slot_given clear parentFound indexFound relationFound
    simp only [perform_remove_child, child, perform_add_child_at, ready]
  · rfl

/-- Putting one node in place of another does not stop when nothing has spoken against it. -/
theorem WellFormed.replace_succeeds (wellFormed : document.WellFormed) {node other : Handle}
    (clear : document.replaceFault? node other = none) :
    (perform (replaceWith node other) document).1 = .ok ⟨⟩ := by
  have given := wellFormed.slot_result clear
  rw [perform_replace_with]
  split
  · rfl
  · simp only [clear]
    generalize perform (giveSlot node other) (document.detach other) = slot at given
    obtain ⟨_, after⟩ := slot
    cases given
    simp [switchRoot]

/-- Where a node cannot be put in place of another, nothing is done. -/
theorem WellFormed.replace_stopped (wellFormed : document.WellFormed) {node other : Handle}
    {fault : Fault} (stopped : (perform (replaceWith node other) document).1 = .error fault) :
    (perform (replaceWith node other) document).2 = document := by
  cases refused : document.replaceFault? node other with
  | none =>
    rw [wellFormed.replace_succeeds refused] at stopped
    cases stopped
  | some reason =>
    rw [perform_replace_with]
    split
    · rfl
    · simp [refused]

/-- Where a child cannot be added, nothing is done. -/
theorem add_stopped {parent child : Handle} {index : Nat} {relation? : Option String}
    {fault : Fault}
    (stopped : (perform (addChildAt parent index relation? child) document).1 = .error fault) :
    (perform (addChildAt parent index relation? child) document).2 = document := by
  rw [perform_add_child_at] at stopped ⊢
  cases refused : document.addFault? parent index relation? child with
  | some reason => rfl
  | none => simp [refused] at stopped

/-- Every operation that stops on a well-formed document leaves all of its nodes as they are.

There is one case for each operation. Every one of them checks before it changes anything, so a
document that it stops on is the one that it began with. Only `appendNew` has made a node by then,
which leaves the others as they are. -/
theorem WellFormed.stopped (wellFormed : document.WellFormed) {operation : Operation}
    {fault : Fault} (stopped : (perform operation.run document).1 = .error fault) :
    Untouched document (document.left operation) := by
  have unchanged (same : (perform operation.run document).2 = document) :
      Untouched document (document.left operation) := by
    rw [Document.left, same]
    exact .refl document
  cases operation with
  | newNode node => simp [Operation.run, perform_new_node] at stopped
  | shallowCopy handle =>
    refine unchanged ?_
    simp only [Operation.run, shallowCopy, perform_discard, perform_bind, perform_get] at stopped ⊢
    cases found : document.node? handle with
    | none => rfl
    | some node => simp [found, perform_new_node] at stopped
  | appendNew parent relation? node =>
    have refused (reason : Fault) (stopped : (perform (Editing.addChildAt parent
          ((document.imported (.leaf node)).childCount parent) relation? document.next)
          (document.imported (.leaf node))).1 = .error reason) := add_stopped stopped
    rw [Document.left]
    simp only [Operation.run, appendNew, perform_discard, perform_bind, perform_new_node,
      perform_get] at stopped ⊢
    generalize perform (Editing.addChildAt parent _ relation? document.next) _ = added
      at stopped refused ⊢
    obtain ⟨reason | _, after⟩ := added
    · obtain rfl : after = document.imported (.leaf node) := refused reason rfl
      exact imported_untouched document (.leaf node)
    · cases stopped
  | addChild parent relation? child =>
    refine unchanged ?_
    simp only [Operation.run, perform_add_child] at stopped ⊢
    exact add_stopped stopped
  | addChildAt parent index relation? child => exact unchanged (add_stopped stopped)
  | removeChild parent index =>
    refine unchanged ?_
    simp only [Operation.run, perform_discard, perform_remove_child] at stopped ⊢
    cases found : document.child? parent index with
    | none => rfl
    | some child => simp [found] at stopped
  | clearChildren parent => simp [Operation.run, perform_clear_children] at stopped
  | replaceWith node other => exact unchanged (wellFormed.replace_stopped stopped)
  | fillIds stem => simp [Operation.run, fillIds] at stopped
  | setNode handle change => simp [Operation.run, setNode] at stopped

/-- In every document that can be reached, an operation that stops leaves each node that was there
with its parent, its children, its key and its contents, and leaves the root. Putting one node in
place of another can stop only before anything has been changed: when nothing has spoken against it
and the other node has been taken out, the node is taken out of its slot and the other is put there
without a fault, and so the whole operation succeeds. -/
theorem stopped_operations_touch_nothing (reached : Reachable document) :
    (∀ operation fault, (perform (Operation.run operation) document).1 = .error fault →
      Untouched document (document.left operation)) ∧
    ∀ node other, document.replaceFault? node other = none →
      (∀ parent index relation, (document.detach other).parent? node = some parent →
        (document.detach other).index? node = some index →
        (document.detach other).relation? node = some relation →
        ∃ freed, perform (removeChild parent index) (document.detach other) = (.ok node, freed) ∧
          (perform (addChildAt parent index (some relation) other) freed).1 = .ok ⟨⟩) ∧
      (perform (replaceWith node other) document).1 = .ok ⟨⟩ := by
  have wellFormed := reached.well_formed
  refine ⟨fun operation fault stopped => wellFormed.stopped stopped, fun node other clear =>
    ⟨fun parent index relation parentFound indexFound relationFound => ?_,
      wellFormed.replace_succeeds clear⟩⟩
  obtain ⟨child, ready⟩ := wellFormed.slot_given clear parentFound indexFound relationFound
  refine ⟨(document.detach other).detach node, ?_, ?_⟩
  · rw [perform_remove_child, child]
  · rw [perform_add_child_at, ready]

/-- In a list of two items, a third one under the key of the first is refused and leaves the list as
it is, while the second item can be put in place of the first. -/
theorem third_item_refused :
    ∃ document : Document, document.Reachable ∧ document.relations 0 = ["first", "1"] ∧
      (perform (Operation.run (.appendNew 0 (some "first") (Node.bare "item"))) document).1 =
        .error (.violation (.relationInUse "first")) ∧
      Untouched document
        (document.left (.appendNew 0 (some "first") (Node.bare "item"))) ∧
      document.replaceFault? 1 2 = none ∧ (perform (replaceWith 1 2) document).1 = .ok ⟨⟩ := by
  let operations : List Operation :=
    [.appendNew 0 (some "first") (Node.bare "item"), .appendNew 0 none (Node.bare "item")]
  have reached : Reachable (operations.foldl left (ofNode (Node.bare "list"))) :=
    List.foldlRecOn operations left (.made _) fun _ before operation _ => before.edited operation
  have refused : (perform (Operation.run (.appendNew 0 (some "first") (Node.bare "item")))
      (operations.foldl left (ofNode (Node.bare "list")))).1 =
        .error (.violation (.relationInUse "first")) := by decide +kernel
  have clear : (operations.foldl left (ofNode (Node.bare "list"))).replaceFault? 1 2 = none := by
    decide +kernel
  obtain ⟨untouched, replaced⟩ := stopped_operations_touch_nothing reached
  exact ⟨_, reached, by decide +kernel, refused, untouched _ _ refused, clear,
    (replaced 1 2 clear).2⟩

end TreeDelta.Document
