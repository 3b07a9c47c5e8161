import TreeDelta.Proofs.Document.Relabelled
import TreeDelta.Proofs.Document.Restored
import TreeDelta.Proofs.Tree.PathOrder

/-!
# Ways through a document

There are four ways of going through the nodes of a document: up from a node, down along a path, and
from the root through all nodes below it, each before or each after what hangs below it. They are
four readings of the same trees. Going up from a node and noting the indices gives its path, going
down along the path leads back to the node, the first walk through all nodes goes by increasing
paths, and the second one finishes the children of a node, in order, right before the node.

This is so for the nodes below a root that has no parent. Below another root the paths that lead up
to the top of the tree are longer than those that lead down from the root.
-/

namespace TreeDelta.Document

/-- The path of a node: the indices on the way up from it, the last one first. Each is kept in a
word of 32 bits. -/
def wordPath (document : Document) (handle : Handle) : List UInt32 :=
  (((document.ancestors handle).filterMap document.index?).map Nat.toUInt32).reverse

/-- The node at the end of a path from the root whose indices are kept in words. -/
def atWordPath? (document : Document) (path : List UInt32) : Option Handle :=
  document.nodeAt? (path.map UInt32.toNat)

/-- The nodes from a node downwards, each after those below it. -/
def postorder (document : Document) (handle : Handle) : List Handle :=
  match document.place? handle with
  | some place => place.tree.postorder.map Entry.handle
  | none => []

variable {document : Document}

section Below

/-- What stands above a place of a document is a place of it. -/
theorem places_above {place upper : Place Entry} (listed : place ∈ document.places)
    (passed : upper ∈ place.ancestors) : upper ∈ document.places := by
  obtain ⟨tree, above⟩ := place
  induction above generalizing tree with
  | nil =>
    obtain rfl : upper = ⟨tree, []⟩ := by
      simpa [Place.ancestors, Place.ancestorsFrom] using passed
    exact listed
  | cons up further inductionHypothesis =>
    obtain rfl | higher : upper = ⟨tree, up :: further⟩ ∨
        upper ∈ (Place.mk up.tree further).ancestors := by
      simpa [Place.ancestors, Place.ancestorsFrom] using passed
    · exact listed
    · exact inductionHypothesis up.tree (parent_listed listed).1 higher

/-- The nodes from a node downwards are those of the places below its place. -/
theorem descendants_of_place {handle : Handle} {place : Place Entry}
    (found : document.place? handle = some place) :
    document.descendants handle = place.preorder.map fun inner => inner.label.handle := by
  simp only [descendants, found]
  rw [← Place.preorder_labels, List.map_map]
  rfl

/-- The nodes from a node downwards are those that hang below it. -/
theorem descendants_iff (unique : document.handles.Nodup) {upper : Handle}
    (present : upper ∈ document.handles) (lower : Handle) :
    lower ∈ document.descendants upper ↔ document.Hangs upper lower := by
  obtain ⟨place, found⟩ := place_of_handle present
  constructor
  · intro inside
    simp only [descendants, found] at inside
    rw [← tree_rows_handles] at inside
    obtain ⟨listed, rfl⟩ := place_found found
    exact hangs_inside unique listed inside
  · intro hangs
    rw [descendants_of_place found]
    induction hangs with
    | refl => exact List.mem_map.mpr ⟨place, (Place.mem_preorder_iff _ _).mpr .here,
        (place_found found).2⟩
    | tail _ child inductionHypothesis =>
      obtain ⟨inner, inside, rfl⟩ := List.mem_map.mp inductionHypothesis
      obtain ⟨upper, index, tree, upperFound, below⟩ := child_place unique child
      obtain rfl : inner = upper :=
        Option.some.inj ((found_below unique found inside).symm.trans upperFound)
      have branch := (parent_listed (place_found below).1).2
      exact List.mem_map.mpr ⟨_, Place.listed_down _ _ _ _ _ inside branch, (place_found below).2⟩

end Below

section Postorder

/-- Both walks go through the same nodes. -/
theorem postorder_perm (handle : Handle) :
    (document.postorder handle).Perm (document.descendants handle) := by
  rw [postorder, descendants]
  cases document.place? handle with
  | none => exact .refl _
  | some place =>
    have labels := place.preorder_perm.symm.map Place.label
    rw [Place.preorder_labels, Place.postorder, Place.postorder_from_labels] at labels
    exact labels.map Entry.handle

/-- The walk that ends with a node goes through what hangs below its children, in order. -/
theorem postorder_children (unique : document.handles.Nodup) {handle : Handle}
    (present : handle ∈ document.handles) :
    document.postorder handle =
      (document.children handle).flatMap document.postorder ++ [handle] := by
  obtain ⟨place, found⟩ := place_of_handle present
  have below : ∀ child ∈ place.tree.children,
      document.postorder child.label.handle = child.postorder.map Entry.handle := by
    intro child member
    obtain ⟨index, branch⟩ := List.mem_iff_getElem?.mp member
    rw [postorder, branch_place unique found branch]
    rfl
  have named : place.tree.label.handle = handle := (place_found found).2
  have whole : place.tree.postorder =
      place.tree.children.flatMap Tree.postorder ++ [place.tree.label] := by
    obtain ⟨⟨label, branches⟩, above⟩ := place
    simp [Tree.postorder, Tree.postorderBranches_eq, Tree.children, List.flatMap_map]
  calc document.postorder handle
      = place.tree.postorder.map Entry.handle := by rw [postorder, found]
    _ = (place.tree.children.flatMap fun child => child.postorder.map Entry.handle) ++
          [handle] := by
        rw [whole, List.map_append, List.map_flatMap, ← named]
        rfl
    _ = (place.tree.children.flatMap fun child => document.postorder child.label.handle) ++
          [handle] := by rw [List.flatMap_congr below]
    _ = (document.children handle).flatMap document.postorder ++ [handle] := by
        rw [children, found, List.flatMap_map]

/-- The walk through what hangs below a node is done in one go. -/
theorem postorder_together (unique : document.handles.Nodup) {upper lower : Handle}
    (hangs : document.Hangs upper lower) :
    document.postorder lower <:+: document.postorder upper := by
  induction hangs with
  | refl => exact List.infix_rfl
  | @tail middle lower above child inductionHypothesis =>
    have middleHere : middle ∈ document.handles := by
      obtain ⟨_, _, _, found, -⟩ := child_place unique child
      exact handle_of_place found
    refine List.IsInfix.trans ?_ inductionHypothesis
    rw [postorder_children unique middleHere]
    exact (List.infix_flatMap_of_mem child _).trans (List.prefix_append _ _).isInfix

end Postorder

section Paths

variable {whole : Tree Entry} {handle : Handle} {place : Place Entry}

/-- The path of a node is that of its place. -/
theorem word_path_eq (unique : document.handles.Nodup)
    (found : document.place? handle = some place) :
    document.wordPath handle = place.path.map Nat.toUInt32 := by
  have indices : place.ancestors.filterMap (fun upper => document.index? upper.label.handle) =
      place.ancestors.filterMap Place.index? := by
    refine List.filterMap_congr fun upper passed => ?_
    rw [index?, find_place unique (places_above (place_found found).1 passed)]
    rfl
  rw [wordPath, ancestors, found]
  simp only [List.filterMap_map, Function.comp_def]
  rw [indices, Place.ancestors_indices, Place.path, List.map_reverse]

/-- The root is the top of its tree if it has no parent. -/
theorem root_at_top (wellFormed : document.WellFormed)
    (parentless : document.parent? document.root = none) :
    ∃ whole, document.place? document.root = some (Place.top whole) := by
  obtain ⟨⟨tree, above⟩, found⟩ := place_of_handle wellFormed.rootExists
  cases above with
  | nil => exact ⟨tree, found⟩
  | cons up further => simp [parent?, found, Place.parent?] at parentless

section Top

variable (unique : document.handles.Nodup)
  (rootFound : document.place? document.root = some (Place.top whole))

include unique rootFound

/-- A node hangs below a root at the top of a tree exactly if its place is in that tree. -/
theorem hangs_below_top_iff :
    document.Hangs document.root handle ↔
      ∃ place ∈ (Place.top whole).preorder, document.place? handle = some place := by
  rw [← descendants_iff unique (handle_of_place rootFound), descendants_of_place rootFound,
    List.mem_map]
  constructor
  · rintro ⟨place, listed, rfl⟩
    exact ⟨place, listed, found_below unique rootFound listed⟩
  · rintro ⟨place, listed, found⟩
    exact ⟨place, listed, (place_found found).2⟩

/-- The indices of a path fit into words if every node has few enough children. -/
theorem path_narrow
    (narrow : ∀ upper ∈ document.descendants document.root,
      document.childCount upper < UInt32.size)
    (inside : place ∈ (Place.top whole).preorder) : ∀ index ∈ place.path, index < UInt32.size := by
  rw [Place.mem_preorder_iff] at inside
  induction inside with
  | here => simp [Place.path, Place.top]
  | @down upper index child reached branch inductionHypothesis =>
    have listed := (Place.mem_preorder_iff _ _).mpr reached
    have upperFound := found_below unique rootFound listed
    have few := narrow upper.label.handle (by
      rw [descendants_of_place rootFound]
      exact List.mem_map_of_mem listed)
    rw [childCount, children, upperFound, List.length_map] at few
    have bound := (List.getElem?_eq_some_iff.mp branch).1
    intro other member
    rw [Place.down, Place.path_step, List.mem_append, List.mem_singleton] at member
    rcases member with before | rfl
    · exact inductionHypothesis other before
    · exact bound.trans few

/-- The path of a node leads from the root to it. -/
theorem at_word_path
    (narrow : ∀ upper ∈ document.descendants document.root,
      document.childCount upper < UInt32.size)
    (hangs : document.Hangs document.root handle) :
    document.atWordPath? (document.wordPath handle) = some handle := by
  obtain ⟨place, listed, found⟩ := (hangs_below_top_iff unique rootFound).mp hangs
  rw [atWordPath?, word_path_eq unique found,
    Path.words_kept (path_narrow unique rootFound narrow listed), nodeAt?, rootFound,
    Option.bind_some, Place.follow_path listed, Option.map_some, (place_found found).2]

/-- The path that leads from the root to a node is that of the node. -/
theorem word_path_at {path : List UInt32} (followed : document.atWordPath? path = some handle) :
    document.wordPath handle = path := by
  rw [atWordPath?, nodeAt?, rootFound, Option.bind_some] at followed
  obtain ⟨place, reached, rfl⟩ := Option.map_eq_some_iff.mp followed
  have found := found_below unique rootFound (Place.listed_of_follow reached)
  rw [word_path_eq unique found, Place.path_of_follow reached, List.map_map]
  exact (List.map_congr_left fun word _ => UInt32.ofNat_toNat).trans (List.map_id path)

/-- The paths of the nodes from the root downwards increase. -/
theorem word_paths_increase
    (narrow : ∀ upper ∈ document.descendants document.root,
      document.childCount upper < UInt32.size) :
    (document.descendants document.root).Pairwise fun early late =>
      document.wordPath early < document.wordPath late := by
  have paths (place : Place Entry) (listed : place ∈ (Place.top whole).preorder) :
      document.wordPath place.label.handle = place.path.map Nat.toUInt32 :=
    word_path_eq unique (found_below unique rootFound listed)
  rw [descendants_of_place rootFound, List.pairwise_map]
  refine (Place.preorder_paths_increase _).imp_of_mem fun earlyListed lateListed before => ?_
  rw [paths _ earlyListed, paths _ lateListed]
  exact Path.words_lt (path_narrow unique rootFound narrow earlyListed)
    (path_narrow unique rootFound narrow lateListed) before

end Top

end Paths

/-- What the ways through a document say of the nodes that hang below the root. -/
structure WaysAgree (document : Document) : Prop where
  /-- The path of a node leads to it. -/
  followed : ∀ handle, document.Hangs document.root handle →
    document.atWordPath? (document.wordPath handle) = some handle
  /-- A node stands as deep as its path is long. -/
  depth : ∀ handle, document.Hangs document.root handle →
    document.depth handle = (document.wordPath handle).length
  /-- The way up from it leads through as many nodes, and itself. -/
  ancestors : ∀ handle, document.Hangs document.root handle →
    (document.ancestors handle).length = document.depth handle + 1
  /-- The only path that leads to a node is its own. -/
  ownPath : ∀ path handle, document.atWordPath? path = some handle →
    document.wordPath handle = path
  /-- From the root downwards stand the nodes that hang below it. -/
  descendants : ∀ handle,
    handle ∈ document.descendants document.root ↔ document.Hangs document.root handle
  /-- Each of them stands there once. -/
  once : (document.descendants document.root).Nodup
  /-- Their paths increase. -/
  increasing : (document.descendants document.root).Pairwise fun early late =>
    document.wordPath early < document.wordPath late
  /-- The other walk goes through the same nodes, also below each of them. -/
  sameNodes : ∀ handle, document.Hangs document.root handle →
    (document.postorder handle).Perm (document.descendants handle)
  /-- It finishes the children of a node, in order, right before the node. -/
  childrenFirst : ∀ handle, document.Hangs document.root handle →
    document.postorder handle =
      (document.children handle).flatMap document.postorder ++ [handle]
  /-- What hangs below a node it goes through in one go. -/
  together : ∀ handle, document.Hangs document.root handle →
    document.postorder handle <:+: document.postorder document.root

/-- Below a root that has no parent the ways through a document agree, as long as no node has so
many children that an index does not fit into a word.

Every node below the root has its place in the tree of the root. Each of the ways is read off this
place, and so the two that go from a node to its path and back. -/
theorem ways_agree (wellFormed : document.WellFormed)
    (parentless : document.parent? document.root = none)
    (narrow : ∀ handle ∈ document.descendants document.root,
      document.childCount handle < UInt32.size) :
    document.WaysAgree := by
  have unique := wellFormed.handlesDiffer
  obtain ⟨whole, rootFound⟩ := root_at_top wellFormed parentless
  have placed (handle : Handle) : document.Hangs document.root handle ↔
      ∃ place ∈ (Place.top whole).preorder, document.place? handle = some place :=
    hangs_below_top_iff unique rootFound
  exact {
    followed handle hangs := at_word_path unique rootFound narrow hangs
    depth handle hangs := by
      obtain ⟨place, -, found⟩ := (placed handle).mp hangs
      simp [depth, found, word_path_eq unique found, Place.depth, Place.path]
    ancestors handle hangs := by
      obtain ⟨place, -, found⟩ := (placed handle).mp hangs
      simp [Document.ancestors, depth, found, Place.ancestors_length]
    ownPath path handle led := word_path_at unique rootFound led
    descendants := descendants_iff unique wellFormed.rootExists
    once := descendants_nodup unique document.root
    increasing := word_paths_increase unique rootFound narrow
    sameNodes handle _ := postorder_perm handle
    childrenFirst handle hangs := by
      obtain ⟨place, -, found⟩ := (placed handle).mp hangs
      exact postorder_children unique (handle_of_place found)
    together handle hangs := postorder_together unique hangs }

/-- The ways through a list of two items agree, the first of which has an item below it. -/
theorem nested_list_ways :
    let item : SyntaxTree := .leaf (Node.bare "item")
    let nested : SyntaxTree := .node (Node.bare "item") [("0", item)]
    let document := ofTree (.node (Node.bare "list") [("0", nested), ("1", item)])
    document.WellFormed ∧ document.parent? document.root = none ∧
      (∀ handle ∈ document.descendants document.root, document.childCount handle < UInt32.size) ∧
      document.WaysAgree ∧ document.descendants 0 = [0, 1, 2, 3] ∧
      document.postorder 0 = [2, 1, 3, 0] ∧ document.wordPath 2 = [0, 0] := by
  intro item nested document
  have itemDiffer : item.KeysDiffer := Tree.keys_differ_leaf _
  have nestedDiffer : nested.KeysDiffer :=
    (Tree.keys_differ_node _ _).mpr ⟨by simp, by simpa using itemDiffer⟩
  have wellFormed : document.WellFormed := of_tree_well_formed
    ((Tree.keys_differ_node _ _).mpr ⟨by simp, by simpa using ⟨nestedDiffer, itemDiffer⟩⟩)
  have narrow : ∀ handle ∈ document.descendants document.root,
      document.childCount handle < UInt32.size := by decide
  exact ⟨wellFormed, rfl, narrow, ways_agree wellFormed rfl narrow, rfl, rfl, rfl⟩

end TreeDelta.Document
