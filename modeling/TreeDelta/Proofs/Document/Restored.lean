import TreeDelta.Proofs.Document.Links

/-!
# Documents that are the same again

The trees of a document stand in a list, but the order of the list says nothing of any node: a node
is found by its handle. A document that has been changed and changed back may hold its trees in
another order, and in nothing else does it differ from what it was.

The links and the contents of the nodes are enough to tell this. They determine every tree from its
top downwards: what stands at the top, and, link by link, what hangs below it. And the tops are the
nodes to which no link leads.
-/

namespace TreeDelta.Document

/-- A document is again what another one has been. It has the same trees, in whatever order, and so
it gives the same answers about every node. -/
structure Restored (before after : Document) : Prop where
  /-- The root is the same. -/
  root : after.root = before.root
  /-- The next node will get the same handle. -/
  next : after.next = before.next
  /-- The trees are the same. -/
  trees : after.trees.Perm before.trees
  /-- Every node has its parent. -/
  parents : ∀ handle, after.parent? handle = before.parent? handle
  /-- Every node has its children, in order. -/
  children : ∀ handle, after.children handle = before.children handle
  /-- Every node has its key. -/
  keys : ∀ handle, after.relation? handle = before.relation? handle
  /-- Every node carries what it has carried. -/
  nodes : ∀ handle, after.node? handle = before.node? handle

variable {document : Document}

/-- What stands below the place of a node is found there. -/
theorem found_below (unique : document.handles.Nodup) {upper : Handle} {place inner : Place Entry}
    (found : document.place? upper = some place) (inside : inner ∈ place.preorder) :
    document.place? inner.label.handle = some inner := by
  obtain ⟨whole, member, outer⟩ := List.mem_flatMap.mp (place_found found).1
  exact find_place unique (List.mem_flatMap.mpr ⟨whole, member, (Place.mem_preorder_iff _ _).mpr
    (((Place.mem_preorder_iff _ _).mp outer).trans ((Place.mem_preorder_iff _ _).mp inside))⟩)

/-- What a branch of a node leads to stands below the place of the node. -/
theorem branch_place (unique : document.handles.Nodup) {upper : Handle} {place : Place Entry}
    (found : document.place? upper = some place) {index : Nat} {tree : Tree Entry}
    (branch : place.tree.children[index]? = some tree) :
    document.place? tree.label.handle = some (place.down index tree) := by
  have here : place ∈ place.preorder := (Place.mem_preorder_iff _ _).mpr .here
  exact found_below unique found (Place.listed_down _ _ _ _ _ here branch)

/-- A place with nothing above it is that of a whole tree. -/
theorem tree_of_place {handle : Handle} {tree : Tree Entry}
    (found : document.place? handle = some ⟨tree, []⟩) : tree ∈ document.trees := by
  obtain ⟨whole, member, inside⟩ := List.mem_flatMap.mp (place_found found).1
  obtain rfl : tree = whole := (Place.mk.inj ((Place.at_top_iff inside).mp rfl)).1
  exact member

/-- The top of a tree has a place with nothing above it. -/
theorem place_of_tree (unique : document.handles.Nodup) {tree : Tree Entry}
    (member : tree ∈ document.trees) :
    document.place? tree.label.handle = some (Place.top tree) :=
  find_place unique (List.mem_flatMap.mpr ⟨tree, member, (Place.mem_preorder_iff _ _).mpr .here⟩)

section Same

variable {before after : Document}

/-- Two documents in which the same node carries the same have the same label at its places. -/
theorem same_label (nodes : ∀ handle, after.node? handle = before.node? handle) {handle : Handle}
    {place other : Place Entry} (found : before.place? handle = some place)
    (otherFound : after.place? handle = some other) : other.label = place.label := by
  have carried : other.label.node = place.label.node := by
    simpa [node?, found, otherFound] using nodes handle
  have named := (place_found otherFound).2.trans (place_found found).2.symm
  calc other.label = ⟨other.label.handle, other.label.node⟩ := rfl
    _ = ⟨place.label.handle, place.label.node⟩ := by rw [named, carried]

/-- Two documents with the same links and the same contents have the same tree below a node. -/
theorem same_tree (unique : before.handles.Nodup) (afterUnique : after.handles.Nodup)
    (links : ∀ handle, after.links handle = before.links handle)
    (nodes : ∀ handle, after.node? handle = before.node? handle) {handle : Handle}
    {place other : Place Entry} (found : before.place? handle = some place)
    (otherFound : after.place? handle = some other) : other.tree = place.tree := by
  induction place using Place.induct_down generalizing handle other with
  | up place inductionHypothesis =>
    have linked : other.tree.branches.map link = place.tree.branches.map link := by
      have same := links handle
      rwa [Document.links, Document.links, found, otherFound] at same
    have below : other.tree.branches = place.tree.branches := by
      refine List.ext_getElem (by simpa using congrArg List.length linked)
        fun index here there => ?_
      have same : link other.tree.branches[index] = link place.tree.branches[index] := by
        simpa [here, there] using congrArg (·[index]?) linked
      obtain ⟨key, handles⟩ := Prod.mk.inj same
      have branch : place.tree.children[index]? = some place.tree.branches[index].2 := by
        simp [Tree.children, there]
      have otherBranch : other.tree.children[index]? = some other.tree.branches[index].2 := by
        simp [Tree.children, here]
      have otherBelow := branch_place afterUnique otherFound otherBranch
      rw [handles] at otherBelow
      exact Prod.ext key
        (inductionHypothesis index _ branch (branch_place unique found branch) otherBelow)
    rw [← other.tree.node_label_branches, ← place.tree.node_label_branches, below]
    exact congrArg (Tree.node · _) (same_label nodes found otherFound)

/-- Two documents with the same links give every node the same parent. -/
theorem same_parent (unique : before.handles.Nodup) (afterUnique : after.handles.Nodup)
    (links : ∀ handle, after.links handle = before.links handle) (handle : Handle) :
    after.parent? handle = before.parent? handle := by
  refine parent_ext unique afterUnique fun upper => ?_
  rw [children_eq, children_eq, links]

/-- A tree of a document is a tree of every other one that has its nodes, links and contents. -/
theorem tree_kept (unique : before.handles.Nodup) (handles : after.handles.Perm before.handles)
    (links : ∀ handle, after.links handle = before.links handle)
    (nodes : ∀ handle, after.node? handle = before.node? handle) {tree : Tree Entry}
    (member : tree ∈ before.trees) : tree ∈ after.trees := by
  have afterUnique := handles.nodup_iff.mpr unique
  have found := place_of_tree unique member
  have present : tree.label.handle ∈ before.handles := handle_of_place found
  obtain ⟨⟨other, above⟩, otherFound⟩ := place_of_handle (handles.mem_iff.mpr present)
  obtain rfl : other = tree := same_tree unique afterUnique links nodes found otherFound
  have parentless := same_parent unique afterUnique links other.label.handle
  rw [parent?, parent?, found, otherFound] at parentless
  cases above with
  | nil => exact tree_of_place otherFound
  | cons up further => cases parentless

/-- A document that has the nodes, the links and the contents of another one is that one again. -/
theorem restored_of_links (unique : before.handles.Nodup) (root : after.root = before.root)
    (next : after.next = before.next) (handles : after.handles.Perm before.handles)
    (links : ∀ handle, after.links handle = before.links handle)
    (nodes : ∀ handle, after.node? handle = before.node? handle) : Restored before after where
  root := root
  next := next
  trees := by
    have afterUnique := handles.nodup_iff.mpr unique
    have differ {document : Document} (unique : document.handles.Nodup) : document.trees.Nodup :=
      (tops_nodup unique).of_map
    refine (List.perm_ext_iff_of_nodup (differ afterUnique) (differ unique)).mpr
      fun tree => ⟨?_, ?_⟩
    · exact tree_kept afterUnique handles.symm (fun handle => (links handle).symm)
        fun handle => (nodes handle).symm
    · exact tree_kept unique handles links nodes
  parents := same_parent unique (handles.nodup_iff.mpr unique) links
  children handle := by rw [children_eq, children_eq, links]
  keys handle := by
    refine relation_ext unique (handles.nodup_iff.mpr unique) fun relation => ?_
    simp only [links]
  nodes := nodes

end Same

end TreeDelta.Document
