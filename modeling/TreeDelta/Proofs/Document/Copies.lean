import TreeDelta.Proofs.Document.TopmostRoot
import TreeDelta.Proofs.Exchange.RoundTrip

/-!
# Copies

What hangs below a node is copied into a document of its own, or into another document as a tree
without a parent. Node by node this goes as follows: the top is made, then each branch is copied and
the copy is hung behind those that are there already, under its own key. In the end the copies have
the next handles in pre-order, which is how a whole tree comes into a document at once.

A copy is equal to what it was made of in everything but handles, the top has no key because it has
no parent, and whatever was in the document before is left alone: new handles are beyond those that
have been given, and a copy is linked to copies only.
-/

namespace TreeDelta

namespace Tree

mutual

/-- A tree agrees with itself, ids and keys included. -/
theorem agrees_refl (ids relations : Bool) (tree : SyntaxTree) :
    tree.agrees ids relations tree = true := by
  cases tree with
  | node top branches =>
    rw [agrees, agrees_branches_refl ids relations branches]
    simp [Node.agrees]

/-- A list of branches agrees with itself. -/
theorem agrees_branches_refl (ids relations : Bool) (branches : List (String × SyntaxTree)) :
    agreesBranches ids relations branches branches = true := by
  cases branches with
  | nil => rfl
  | cons branch rest =>
    rw [agreesBranches, agrees_refl ids relations branch.2, agrees_branches_refl ids relations rest]
    simp

end

/-- A list of branches has the nodes of its parts. -/
theorem size_branches_append {α : Type} (branches more : List (String × Tree α)) :
    sizeBranches (branches ++ more) = sizeBranches branches + sizeBranches more := by
  induction branches with
  | nil => simp [sizeBranches]
  | cons branch rest inductionHypothesis => simp [sizeBranches, inductionHypothesis, Nat.add_assoc]

end Tree

namespace Document

open Editing

/-! ### Copying node by node -/

mutual

/-- Copy a tree into a document node by node. The result is the copy of its top. -/
def copyNodes : SyntaxTree → Editing Handle
  | .node top branches => do
    let copy ← newNode top
    copyBranches copy branches
    return copy

/-- Copy branches one by one and hang each behind the children that a node already has. -/
def copyBranches (parent : Handle) : List (String × SyntaxTree) → Editing Unit
  | [] => return ()
  | (relation, child) :: rest => do
    let copy ← copyNodes child
    modify fun document => document.attach parent (document.childCount parent) relation copy
    copyBranches parent rest

end

/-- A document without any node. -/
def empty : Document := ⟨0, [], 0⟩

variable {document : Document}

/-- Handles are given to branches one after the other. -/
theorem branches_with_handles_append (next : Handle) (branches more : List (String × SyntaxTree)) :
    branchesWithHandles next (branches ++ more) =
      branchesWithHandles next branches ++
        branchesWithHandles (next + Tree.sizeBranches branches) more := by
  induction branches generalizing next with
  | nil => rfl
  | cons branch rest inductionHypothesis =>
    rw [List.cons_append, branchesWithHandles, branchesWithHandles, inductionHypothesis,
      Tree.sizeBranches, Nat.add_assoc]
    rfl

/-- Every branch is given handles. -/
theorem branches_with_handles_length (next : Handle) (branches : List (String × SyntaxTree)) :
    (branchesWithHandles next branches).length = branches.length := by
  induction branches generalizing next with
  | nil => rfl
  | cons branch rest inductionHypothesis => simp [branchesWithHandles, inductionHypothesis]

/-- The top of an imported tree has as many children as the tree has branches. -/
theorem Numbered.imported_count (numbered : document.Numbered) (top : Node)
    (branches : List (String × SyntaxTree)) :
    (document.imported (.node top branches)).childCount document.next = branches.length := by
  rw [childCount, children, numbered.imported_top]
  simp [Place.top, Tree.children, withHandles, branches_with_handles_length]

/-- When the last of the trees of a document is given to a node, it is taken from the trees. -/
theorem attach_last {trees : List (Tree Entry)} {last : Tree Entry}
    (unique : document.handles.Nodup) (whole : document.trees = trees ++ [last])
    (parent : Handle) (index : Nat) (relation : String) :
    document.attach parent index relation last.label.handle =
      { document with trees := trees.map (changeBranches parent fun branches =>
          branches.insertIdx index (relation, last)) } := by
  have tops := tops_nodup unique
  have found := Named.find_named (fun tree : Tree Entry => tree.label.handle) tops
    (whole ▸ List.mem_append_right trees (List.mem_singleton_self last))
  have others : document.trees.filter (fun other => other.label.handle ≠ last.label.handle) =
      trees := by
    rw [whole, List.map_append, List.nodup_append] at tops
    rw [whole, List.filter_append, List.filter_eq_self.mpr, List.filter_eq_nil_iff.mpr,
      List.append_nil]
    · simp
    · intro other member
      exact decide_eq_true (tops.2.2 _ (List.mem_map_of_mem member) _ (by simp))
  rw [attach, found]
  simp only [others, mapBranches]

/-- A branch that is put behind those of a tree under handles gets the handles that come next. -/
theorem branch_put (next : Handle) (top : Node) (done : List (String × SyntaxTree))
    (relation : String) (child : SyntaxTree) :
    changeBranches next
        (fun branches => branches.insertIdx done.length
          (relation, withHandles (next + (Tree.node top done).size) child))
        (withHandles next (.node top done)) =
      withHandles next (.node top (done ++ [(relation, child)])) := by
  have below (branches : List (String × SyntaxTree)) (start : Handle) (later : next < start)
      (change : Branches → Branches) :
      changeBelow next change (branchesWithHandles start branches) =
        branchesWithHandles start branches := by
    rw [change_below_eq]
    refine (List.map_congr_left fun branch member => ?_).trans (List.map_id _)
    rw [change_absent]
    · rfl
    · intro inside
      rw [tree_rows_handles] at inside
      have listed : next ∈ (Tree.preorderBranches (branchesWithHandles start branches)).map
          Entry.handle := by
        rw [Tree.preorderBranches_eq, List.map_flatMap]
        exact List.mem_flatMap.mpr ⟨branch, member, inside⟩
      rw [branches_with_handles, List.mem_range'_1] at listed
      exact Nat.not_le.mpr later listed.1
  have length := branches_with_handles_length (next + 1) done
  have start : next + 1 + Tree.sizeBranches done = next + (Tree.node top done).size := by
    rw [Tree.size, Nat.add_assoc, Nat.add_comm 1]
  rw [withHandles, withHandles, changeBranches, if_pos rfl,
    below done (next + 1) (Nat.lt_succ_self next), branches_with_handles_append, ← length,
    List.insertIdx_length_self, start]
  rfl

/-- The copy of a branch is hung behind those of the branches before it.

The copy of the branch is the last tree, and its parent is the top of the tree before. So attaching
it takes the last tree away and changes only the one before, and the next handle is right because
sizes add up. -/
theorem Numbered.branch_hung (numbered : document.Numbered) (top : Node)
    (done : List (String × SyntaxTree)) (relation : String) (child : SyntaxTree) :
    let begun := document.imported (.node top done)
    (begun.imported child).attach document.next ((begun.imported child).childCount document.next)
        relation begun.next =
      document.imported (.node top (done ++ [(relation, child)])) := by
  intro begun
  have begunNumbered := numbered.imported (.node top done)
  have here : document.next ∈ begun.handles := by
    rw [← has_iff, has, numbered.imported_top]
    rfl
  have count : (begun.imported child).childCount document.next = done.length := by
    rw [childCount, (imported_untouched begun child).children _ here]
    exact numbered.imported_count top done
  have name : begun.next = (withHandles begun.next child).label.handle := by
    rw [with_handles_label]
  have absent (tree : Tree Entry) (member : tree ∈ document.trees) :
      document.next ∉ (treeRows tree).map Row.handle := fun inside => by
    rw [tree_rows_handles] at inside
    exact Nat.lt_irrefl _ (numbered.given _ (List.mem_flatMap.mpr ⟨tree, member, inside⟩))
  have others : document.trees.map (changeBranches document.next fun branches =>
      branches.insertIdx done.length (relation, withHandles begun.next child)) = document.trees :=
    (List.map_congr_left fun tree member => change_absent _ _ tree (absent tree member)).trans
      (List.map_id _)
  have grown := branch_put document.next top done relation child
  have next : (begun.imported child).next =
      document.next + (Tree.node top (done ++ [(relation, child)])).size := by
    change document.next + (Tree.node top done).size + child.size = _
    simp only [Tree.size, Tree.size_branches_append, Tree.sizeBranches, Nat.add_zero, Nat.add_assoc,
      Nat.add_comm 1]
  rw [count, name, attach_last (begunNumbered.imported child).differ rfl]
  change Document.mk document.root ((document.trees ++ [withHandles document.next
    (.node top done)]).map _) (begun.imported child).next = _
  rw [List.map_append, others, List.map_singleton, next]
  exact congrArg (fun last => Document.mk document.root (document.trees ++ [last]) _) grown

mutual

/-- Copying a tree node by node brings it into the document under the next handles. -/
theorem copy_nodes {document : Document} (numbered : document.Numbered) (tree : SyntaxTree) :
    perform (copyNodes tree) document = (.ok document.next, document.imported tree) := by
  cases tree with
  | node top branches =>
    have below := copy_branches numbered top [] branches
    rw [List.nil_append] at below
    simp only [copyNodes, perform_bind, perform_new_node]
    change perform (copyBranches document.next branches) (document.imported (.leaf top)) = _
      at below
    rw [below]
    rfl

/-- Copying branches one by one adds them to those that have been copied. -/
theorem copy_branches {document : Document} (numbered : document.Numbered) (top : Node)
    (done branches : List (String × SyntaxTree)) :
    perform (copyBranches document.next branches) (document.imported (.node top done)) =
      (.ok ⟨⟩, document.imported (.node top (done ++ branches))) := by
  cases branches with
  | nil =>
    rw [List.append_nil]
    rfl
  | cons branch rest =>
    have first := copy_nodes (numbered.imported (.node top done)) branch.2
    have others := copy_branches numbered top (done ++ [branch]) rest
    rw [List.append_assoc, List.singleton_append] at others
    rw [copyBranches, perform_bind, first]
    simp only [perform_bind, perform_modify, numbered.branch_hung top done branch.1 branch.2]
    exact others

end

/-! ### What a copy is -/

/-- A document has at a node without a parent what hangs below a node of another document. -/
structure CopyOf (source : Document) (handle : Handle) (copy : Document) (top : Handle) : Prop where
  /-- Kinds, values, ids, keys and their order are the same, and every node has the ends of the one
  that it corresponds to. -/
  agrees : ∃ original copied, source.tree? handle = some original ∧ copy.tree? top = some copied ∧
    original.agrees true true copied = true ∧ copied.map Node.ends = original.map Node.ends
  /-- There are as many nodes. -/
  count : (copy.descendants top).length = (source.descendants handle).length
  /-- The top has no parent. -/
  loose : copy.parent? top = none

/-- As many nodes hang below a node as its tree has. -/
theorem descendants_length {source : Document} {handle : Handle} {tree : SyntaxTree}
    (taken : source.tree? handle = some tree) :
    (source.descendants handle).length = tree.size := by
  obtain ⟨place, found, rfl⟩ := Option.map_eq_some_iff.mp taken
  have nodes := congrArg List.length (Place.preorder_labels (Place.top (place.tree.map Entry.node)))
  rw [List.length_map, Place.preorder_length, Place.top, Tree.preorder_map, List.length_map]
    at nodes
  rw [descendants, found, List.length_map, nodes]

/-- The nodes of an imported tree have the handles that it brings. -/
theorem Numbered.imported_descendants (numbered : document.Numbered) (tree : SyntaxTree) :
    (document.imported tree).descendants document.next =
      List.range' document.next tree.size := by
  rw [descendants, numbered.imported_top]
  exact with_handles document.next tree

/-- An imported tree is a copy of what it was taken from. -/
theorem Numbered.imported_copy (numbered : document.Numbered) {source : Document} {handle : Handle}
    {tree : SyntaxTree} (taken : source.tree? handle = some tree) :
    CopyOf source handle (document.imported tree) document.next := by
  have brought : (document.imported tree).tree? document.next = some tree := by
    rw [tree?, numbered.imported_top, Option.map_some, Place.top, without_handles]
  constructor
  case agrees => exact ⟨tree, tree, taken, brought, Tree.agrees_refl true true tree, rfl⟩
  case count => rw [descendants_length taken, descendants_length brought]
  case loose =>
    rw [parent?, numbered.imported_top]
    rfl

/-- The document of a tree is what comes of importing the tree where nothing is. -/
theorem imported_empty (tree : SyntaxTree) : empty.imported tree = ofTree tree := by
  simp [empty, imported, ofTree]

/-- In a document without nodes nothing can be wrong with the handles. -/
theorem empty_numbered : empty.Numbered := ⟨List.nodup_nil, by simp [empty, handles]⟩

/-- What hangs below any node of a document can be copied node by node. In a document of its own the
copy is the tree below the root, and there are no other nodes. In another document it gets nodes
that were not there before, and every node that was there is as it was.

Copying node by node gives the same document as importing the tree, so both halves are facts about
imports, the first about the import into the empty document. -/
theorem copies_equal_apart {source target : Document} {handle : Handle}
    (present : handle ∈ source.handles) (wellFormed : target.WellFormed) :
    ∃ tree, source.tree? handle = some tree ∧
      (perform (copyNodes tree) empty = (.ok (ofTree tree).root, ofTree tree) ∧
        CopyOf source handle (ofTree tree) (ofTree tree).root ∧
        (ofTree tree).handles.length = (source.descendants handle).length) ∧
      ∃ top after, perform (importTree tree) target = (.ok top, after) ∧
        perform (copyNodes tree) target = (.ok top, after) ∧ CopyOf source handle after top ∧
        after.handles = target.handles ++ after.descendants top ∧
        (∀ lower ∈ after.descendants top, lower ∉ target.handles) ∧ Untouched target after := by
  obtain ⟨place, found⟩ := place_of_handle present
  have taken : source.tree? handle = some (place.tree.map Entry.node) := by rw [tree?, found]; rfl
  generalize place.tree.map Entry.node = tree at taken
  have numbered := wellFormed.numbered
  refine ⟨tree, taken, ⟨?_, ?_, ?_⟩, target.next, target.imported tree, ?_, ?_, ?_, ?_, ?_, ?_⟩
  · rw [← imported_empty]
    exact copy_nodes empty_numbered tree
  · rw [← imported_empty]
    exact empty_numbered.imported_copy taken
  · rw [of_tree_handles, List.length_range', descendants_length taken]
  · exact perform_import_tree tree target
  · exact copy_nodes numbered tree
  · exact numbered.imported_copy taken
  · rw [imported_handles, numbered.imported_descendants]
  · intro lower listed old
    rw [numbered.imported_descendants, List.mem_range'_1] at listed
    exact Nat.not_le.mpr (numbered.given lower old) listed.1
  · exact imported_untouched target tree

/-- An item with a word below it, taken out of a list and copied into a document of a block. -/
theorem loose_item_copied :
    let item : SyntaxTree := .node (Node.bare "item") [("text", .leaf (Node.bare "word"))]
    let source := (ofTree (.node (Node.bare "list") [("first", item)])).detach 1
    let target := ofNode (Node.bare "block")
    source.parent? 1 = none ∧ source.tree? 1 = some item ∧
      CopyOf source 1 (ofTree item) (ofTree item).root ∧
      ∃ top after, perform (importTree item) target = (.ok top, after) ∧
        CopyOf source 1 after top ∧ Untouched target after := by
  intro item source target
  have present : 1 ∈ source.handles := by decide +kernel
  have taken : source.tree? 1 = some item := by rfl
  have wellFormed : target.WellFormed := of_tree_well_formed (Tree.keys_differ_leaf _)
  obtain ⟨tree, found, ⟨-, alone, -⟩, top, after, brought, -, copied, -, -, untouched⟩ :=
    copies_equal_apart present wellFormed
  obtain rfl := Option.some.inj (found.symm.trans taken)
  exact ⟨by decide +kernel, found, alone, top, after, brought, copied, untouched⟩

end Document

end TreeDelta
