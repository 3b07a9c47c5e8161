import TreeDelta.Document.Editing
import TreeDelta.Proofs.Document.Preservation

/-!
# Trees under new handles

A tree comes into a document with handles counted up in pre-order from the next one to be given. So
its handles are different from each other and from those of the document, and the next handle lies
beyond them. Without its handles it is the tree that it was.
-/

namespace TreeDelta.Document

/-- Handles differ, and the next one lies beyond them. -/
structure Numbered (document : Document) : Prop where
  differ : document.handles.Nodup
  given : ∀ handle ∈ document.handles, handle < document.next

/-- The nodes of a well-formed document are numbered. -/
theorem WellFormed.numbered {document : Document} (wellFormed : document.WellFormed) :
    document.Numbered := ⟨wellFormed.handlesDiffer, wellFormed.handlesGiven⟩

mutual

/-- Handles are given in pre-order, one after the other. -/
theorem with_handles (next : Handle) (tree : SyntaxTree) :
    (withHandles next tree).preorder.map Entry.handle = List.range' next tree.size := by
  cases tree with
  | node top branches =>
    simp only [withHandles, Tree.preorder, List.map_cons, branches_with_handles (next + 1) branches,
      Tree.size]
    exact List.range'_succ.symm

/-- Handles are given branch by branch. -/
theorem branches_with_handles (next : Handle) (branches : List (String × SyntaxTree)) :
    (Tree.preorderBranches (branchesWithHandles next branches)).map Entry.handle =
      List.range' next (Tree.sizeBranches branches) := by
  cases branches with
  | nil => rfl
  | cons branch rest =>
    simp only [branchesWithHandles, Tree.preorderBranches, List.map_append,
      with_handles next branch.2, branches_with_handles (next + branch.2.size) rest,
      Tree.sizeBranches]
    rw [List.range'_append_1]

end

mutual

/-- A tree is the same without the handles that it is given. -/
theorem without_handles (next : Handle) (tree : SyntaxTree) :
    (withHandles next tree).map Entry.node = tree := by
  cases tree with
  | node top branches =>
    simp only [withHandles, Tree.map, branches_without_handles (next + 1) branches]

/-- Branches are the same without the handles that they are given. -/
theorem branches_without_handles (next : Handle) (branches : List (String × SyntaxTree)) :
    Tree.mapBranches Entry.node (branchesWithHandles next branches) = branches := by
  cases branches with
  | nil => rfl
  | cons branch rest =>
    simp only [branchesWithHandles, Tree.mapBranches, without_handles next branch.2,
      branches_without_handles (next + branch.2.size) rest]

end

/-- A tree with different keys has them under its handles too. -/
theorem with_handles_keys {tree : SyntaxTree} (differ : tree.KeysDiffer) (next : Handle) :
    DistinctKeys (withHandles next tree) := by
  rw [← without_handles next tree, Tree.keys_differ_map] at differ
  exact fun place inside => differ place.tree (List.mem_map_of_mem inside)

/-- The top of a tree gets the first of its handles. -/
theorem with_handles_label (next : Handle) (tree : SyntaxTree) :
    (withHandles next tree).label = ⟨next, tree.label⟩ := by
  obtain ⟨top, branches⟩ := tree
  rfl

/-- The handles of the document of a tree are counted up from zero. -/
theorem of_tree_handles (tree : SyntaxTree) :
    (ofTree tree).handles = List.range' 0 tree.size := by
  simp [Document.handles, ofTree, with_handles]

/-- The nodes of the document of a tree are numbered. -/
theorem of_tree_numbered (tree : SyntaxTree) : (ofTree tree).Numbered := by
  constructor
  · rw [of_tree_handles]
    exact List.nodup_range'
  · intro handle listed
    rw [of_tree_handles, List.mem_range'_1] at listed
    simpa [ofTree] using listed.2

/-- The document of a tree with different keys is well formed. -/
theorem of_tree_well_formed {tree : SyntaxTree} (differ : tree.KeysDiffer) :
    (ofTree tree).WellFormed := by
  have size : 0 < tree.size := by
    obtain ⟨top, branches⟩ := tree
    simp [Tree.size]
  have numbered := of_tree_numbered tree
  refine ⟨numbered.differ, numbered.given, ?_, ?_⟩
  · rw [of_tree_handles, List.mem_range'_1]
    exact ⟨le_rfl, by simpa [ofTree] using size⟩
  · intro other member
    obtain rfl : other = withHandles 0 tree := by simpa [ofTree] using member
    exact with_handles_keys differ 0

/-- The root of the document of a tree is the node at the top of the tree. -/
theorem of_tree_top (tree : SyntaxTree) :
    (withHandles 0 tree).label.handle = (ofTree tree).root := by
  obtain ⟨top, branches⟩ := tree
  rfl

/-- The document of a tree has the tree below its root. -/
theorem of_tree_root (tree : SyntaxTree) : (ofTree tree).tree? (ofTree tree).root = some tree := by
  have found : (ofTree tree).place? 0 = some (Place.top (withHandles 0 tree)) := by
    obtain ⟨top, branches⟩ := tree
    simp [place?, places, ofTree, withHandles, Place.preorder, Place.preorderFrom, Place.top,
      Place.label]
  change (ofTree tree).tree? 0 = some tree
  rw [tree?, found, Option.map_some, Place.top, without_handles]

variable {document : Document}

/-- The document with a tree under new handles. -/
def imported (document : Document) (tree : SyntaxTree) : Document :=
  { document with
    trees := document.trees ++ [withHandles document.next tree]
    next := document.next + tree.size }

/-- An imported tree brings the next handles. -/
theorem imported_handles (tree : SyntaxTree) :
    (document.imported tree).handles =
      document.handles ++ List.range' document.next tree.size := by
  simp [handles, imported, with_handles]

/-- The nodes of a document stay numbered when a tree is imported. -/
theorem Numbered.imported (numbered : document.Numbered) (tree : SyntaxTree) :
    (document.imported tree).Numbered := by
  constructor
  · rw [imported_handles, List.nodup_append']
    refine ⟨numbered.differ, List.nodup_range', fun handle old new => ?_⟩
    exact absurd (numbered.given handle old) (Nat.not_lt.mpr (List.mem_range'_1.mp new).1)
  · intro handle listed
    change handle < document.next + tree.size
    rw [imported_handles, List.mem_append, List.mem_range'_1] at listed
    rcases listed with old | new
    · exact Nat.lt_add_right tree.size (numbered.given handle old)
    · exact new.2

/-- An imported tree stands at the next handle, without a parent. -/
theorem Numbered.imported_top (numbered : document.Numbered) (tree : SyntaxTree) :
    (document.imported tree).place? document.next =
      some (Place.top (withHandles document.next tree)) := by
  have listed : Place.top (withHandles document.next tree) ∈ (document.imported tree).places :=
    List.mem_flatMap.mpr ⟨_, List.mem_append_right _ (List.mem_singleton_self _),
      (Place.mem_preorder_iff _ _).mpr .here⟩
  have found := find_place (numbered.imported tree).differ listed
  rwa [Place.label, Place.top, with_handles_label] at found

/-- A document stays well formed when a tree with different keys is imported. -/
theorem WellFormed.imported (wellFormed : document.WellFormed) {tree : SyntaxTree}
    (differ : tree.KeysDiffer) : (document.imported tree).WellFormed := by
  have numbered := wellFormed.numbered.imported tree
  refine ⟨numbered.differ, numbered.given, ?_, ?_⟩
  · rw [imported_handles]
    exact List.mem_append_left _ wellFormed.rootExists
  · intro other member
    rcases List.mem_append.mp member with old | new
    · exact wellFormed.keysDiffer other old
    · obtain rfl : other = withHandles document.next tree := by simpa using new
      exact with_handles_keys differ document.next

/-- The tree below a node of a well-formed document has different keys. -/
theorem WellFormed.tree_keys (wellFormed : document.WellFormed) {handle : Handle}
    {tree : SyntaxTree} (taken : document.tree? handle = some tree) : tree.KeysDiffer := by
  obtain ⟨place, found, rfl⟩ := Option.map_eq_some_iff.mp taken
  rw [Tree.keys_differ_map]
  obtain ⟨whole, member, inside⟩ := List.mem_flatMap.mp (place_found found).1
  have differ : whole.KeysDiffer := fun subtree listed => by
    obtain ⟨other, otherListed, rfl⟩ := List.mem_map.mp listed
    exact wellFormed.keysDiffer whole member other otherListed
  exact differ.of_subtree (List.mem_map_of_mem inside)

/-- A document stays well formed when what a node carries is changed. -/
theorem WellFormed.updateNode (wellFormed : document.WellFormed) (handle : Handle)
    (change : Node → Node) : (document.updateNode handle change).WellFormed := by
  refine well_formed_of_rows wellFormed (Row.update_handle handle change)
    (.of_eq (update_rows handle change)) rfl ?_ fun row listed => ?_
  · exact wellFormed.rootExists
  · change row.keys.Nodup
    exact wellFormed.row_keys listed

end TreeDelta.Document
