import TreeDelta.Proofs.Document.Identified
import TreeDelta.Proofs.Document.Refusals
import TreeDelta.Proofs.Tree.Additions

/-!
# Appended trees

A tree that is imported into a document stands there on its own, under the next handles. When its
top is added behind the children of a node, the document's tree gains the places of the imported
one, and nothing of what it had changes its place.
-/

namespace TreeDelta.Document

open Editing Place

variable {handle : Handle} {count : Nat} {relation : String} {child : Tree Entry}
  {change : Branches → Branches}

/-! ### The tree that has grown -/

/-- A tree in which the node stands at no place is not changed. -/
theorem change_elsewhere {tree : Tree Entry} {above : List (Step Entry)}
    (absent : ∀ place ∈ preorderFrom above tree, place.label.handle ≠ handle) :
    changeBranches handle change tree = tree := by
  refine change_absent handle change tree fun present => ?_
  have handles : (treeRows tree).map Row.handle =
      (preorderFrom above tree).map fun place => place.label.handle := by
    rw [treeRows, ← Tree.subtrees_from above, List.map_map, List.map_map]
    rfl
  rw [handles] at present
  obtain ⟨place, listed, named⟩ := List.mem_map.mp present
  exact absent place listed named

/-- A list of branches in which the node stands at no place is not changed. -/
theorem change_elsewhere_below {branches : Branches} {upper : Tree Entry}
    {above : List (Step Entry)} {index : Nat}
    (absent : ∀ place ∈ preorderBranches upper above index branches,
      place.label.handle ≠ handle) :
    changeBelow handle change branches = branches := by
  induction branches generalizing index with
  | nil => rfl
  | cons branch rest inductionHypothesis =>
    rw [changeBelow, change_elsewhere fun place listed =>
        absent place (List.mem_append_left _ listed),
      inductionHypothesis fun place listed => absent place (List.mem_append_right _ listed)]

/-- Put one more branch at an index. -/
abbrev withBranch (count : Nat) (relation : String) (child : Tree Entry) : Branches → Branches :=
  fun branches => branches.insertIdx count (relation, child)

mutual

/-- A tree in which a node gets a tree behind its branches gains the places of that tree. -/
theorem places_gained {tree : Tree Entry} {above grownAbove : List (Step Entry)}
    (unique : ((preorderFrom above tree).map fun place => place.label.handle).Nodup)
    (here : Same ⟨tree, above⟩
      ⟨changeBranches handle (withBranch count relation child) tree, grownAbove⟩)
    {parent : Place Entry} (listed : parent ∈ preorderFrom above tree)
    (named : parent.label.handle = handle) (length : parent.tree.branches.length = count) :
    ∃ up further, Gains (preorderFrom above tree)
      (preorderFrom grownAbove
        (changeBranches handle (withBranch count relation child) tree))
      ⟨child, up :: further⟩ := by
  cases tree with
  | node top branches =>
    rw [preorderFrom] at unique listed
    -- The node is the top, and then it is at no place below, or it is below one of the branches.
    by_cases atTop : top.handle = handle
    · have isTop : parent = ⟨.node top branches, above⟩ :=
        List.inj_on_of_nodup_map unique listed List.mem_cons_self (named.trans atTop.symm)
      have absent : ∀ place ∈ preorderBranches (.node top branches) above 0 branches,
          place.label.handle ≠ handle := fun place inside same =>
        (List.nodup_cons.mp unique).1 (List.mem_map.mpr ⟨place, inside, same.trans atTop.symm⟩)
      have below : changeBelow handle (withBranch count relation child) branches = branches :=
        change_elsewhere_below absent
      have last : withBranch count relation child branches = branches ++ [(relation, child)] := by
        rw [withBranch, ← length, isTop]
        exact List.insertIdx_length_self
      rw [changeBranches, below, if_pos atTop, last] at here ⊢
      exact ⟨_, _, gains_last here⟩
    · have inside : parent ∈ preorderBranches (.node top branches) above 0 branches := by
        refine (List.mem_cons.mp listed).resolve_left fun isTop => atTop ?_
        rw [← named, isTop]
        rfl
      rw [changeBranches, if_neg atTop] at here ⊢
      obtain ⟨up, further, gains⟩ :=
        branches_gained 0 (List.nodup_cons.mp unique).2 here inside named length
      rw [preorderFrom, preorderFrom]
      exact ⟨up, further, gains.behind (.cons here .nil)⟩

/-- The same for a list of branches.

As handles differ, the parent is in exactly one of the branches. That one gains the child by the
statement for trees; the places of the others stay the same, up to the tree at the top. -/
theorem branches_gained {branches : Branches} {upper grownUpper : Tree Entry}
    {above grownAbove : List (Step Entry)} (index : Nat)
    (unique : ((preorderBranches upper above index branches).map fun place =>
      place.label.handle).Nodup)
    (here : Same ⟨upper, above⟩ ⟨grownUpper, grownAbove⟩)
    {parent : Place Entry} (listed : parent ∈ preorderBranches upper above index branches)
    (named : parent.label.handle = handle) (length : parent.tree.branches.length = count) :
    ∃ up further, Gains (preorderBranches upper above index branches)
      (preorderBranches grownUpper grownAbove index
        (changeBelow handle (withBranch count relation child) branches))
      ⟨child, up :: further⟩ := by
  cases branches with
  | nil => cases listed
  | cons branch rest =>
    rw [preorderBranches] at unique listed
    rw [List.map_append, List.nodup_append'] at unique
    obtain ⟨firstUnique, restUnique, apart⟩ := unique
    rw [preorderBranches, changeBelow, preorderBranches]
    -- One branch has the node; no place of the others does, so they stay what they are.
    rcases List.mem_append.mp listed with inFirst | inRest
    · have restSame : changeBelow handle (withBranch count relation child) rest = rest :=
        change_elsewhere_below fun place inside same => apart
          (List.mem_map.mpr ⟨parent, inFirst, named⟩) (List.mem_map.mpr ⟨place, inside, same⟩)
      have seen : Same ⟨branch.2, ⟨upper, index⟩ :: above⟩
          ⟨changeBranches handle (withBranch count relation child) branch.2,
            ⟨grownUpper, index⟩ :: grownAbove⟩ :=
        .child here rfl (decide_eq_true (change_branches_label _ _ _).symm)
      obtain ⟨up, further, gains⟩ := places_gained firstUnique seen inFirst named length
      rw [restSame]
      exact ⟨up, further, gains.before (branches_same here (index + 1) rest)⟩
    · have firstSame : changeBranches handle (withBranch count relation child) branch.2 =
          branch.2 :=
        change_elsewhere fun place inside same => apart
          (List.mem_map.mpr ⟨place, inside, same⟩) (List.mem_map.mpr ⟨parent, inRest, named⟩)
      obtain ⟨up, further, gains⟩ :=
        branches_gained (index + 1) restUnique here inRest named length
      have seen : Same ⟨branch.2, ⟨upper, index⟩ :: above⟩
          ⟨branch.2, ⟨grownUpper, index⟩ :: grownAbove⟩ := .child here rfl (decide_eq_true rfl)
      rw [firstSame]
      exact ⟨up, further, gains.behind (tree_same seen)⟩

end

/-! ### The document -/

variable {tree added : SyntaxTree} {parent : Handle} {relation? : Option String}

/-- A tree that is imported into the document of a tree brings handles of its own. -/
theorem imported_unique (tree added : SyntaxTree) :
    ((ofTree tree).imported added).handles.Nodup :=
  ((of_tree_numbered tree).imported added).differ

/-- The top of an imported tree has no parent. -/
theorem imported_loose (tree added : SyntaxTree) :
    ((ofTree tree).imported added).place? tree.size =
      some (Place.top (withHandles tree.size added)) :=
  (of_tree_numbered tree).imported_top added

/-- No handle of a document is the next one, and nothing stands above or below that. -/
theorem next_apart {tree : SyntaxTree} (present : (ofTree tree).has parent = true) :
    (ofTree tree).isAncestorOrSelf tree.size parent = false := by
  have unique : (ofTree tree).handles.Nodup := by
    rw [of_tree_handles]
    exact List.nodup_range'
  have absent : tree.size ∉ (ofTree tree).handles := by
    rw [of_tree_handles]
    simp
  rw [← Bool.not_eq_true]
  intro above
  rcases Relation.ReflTransGen.cases_head (hangs_of_ancestor unique above) with
    rfl | ⟨lower, child, -⟩
  · exact absent ((has_iff _).mp present)
  · rw [children_eq] at child
    obtain ⟨⟨relation, _⟩, linked, -⟩ := List.mem_map.mp child
    exact absent (handle_of_link linked)

/-- A node of the document has only the children that it had before the import, and the imported
top is none of them. -/
theorem imported_children (added : SyntaxTree) (present : (ofTree tree).has parent = true) :
    (((ofTree tree).imported added).children parent).filter (· ≠ tree.size) =
      (ofTree tree).children parent := by
  have absent : tree.size ∉ ((ofTree tree).imported added).children parent := by
    intro child
    obtain ⟨upper, index, below, -, found⟩ := child_place (imported_unique tree added) child
    rw [imported_loose] at found
    cases found
  rw [filter_absent absent]
  exact (imported_untouched _ _).children parent ((has_iff _).mp present)

/-- Nothing speaks against adding an imported tree behind the children of a node, under a key that
none of them has or under a fresh one. -/
theorem append_clear (added : SyntaxTree) (present : (ofTree tree).has parent = true)
    (free : ∀ relation ∈ relation?, relation ∉ (ofTree tree).relations parent) :
    ((ofTree tree).imported added).addFault? parent ((ofTree tree).childCount parent) relation?
      tree.size = none := by
  have here := (has_iff _).mp present
  have place := imported_place added here
  refine add_fault_clear ?_ ?_ ?_ ?_ (congrArg List.length (imported_children added present)).ge
  · rw [imported_handles]
    exact List.mem_append_left _ here
  · rw [← has_iff, has, imported_loose]
    rfl
  · rw [isAncestorOrSelf, ancestors, place]
    exact next_apart present
  · intro relation given other found
    have key := List.mem_map_of_mem (f := Prod.fst) (link_of_lookup found)
    rw [← relations_eq, relations, place] at key
    exact absurd key (free relation given)

/-- Adding an imported tree changes the branches of one node of the document's tree. -/
theorem attach_imported (tree added : SyntaxTree) (parent : Handle) (count : Nat)
    (relation : String) :
    (((ofTree tree).imported added).detach tree.size).attach parent count relation tree.size =
      ⟨0, [changeBranches parent (withBranch count relation (withHandles tree.size added))
        (withHandles 0 tree)], tree.size + added.size⟩ := by
  have stays : ((ofTree tree).imported added).detach tree.size =
      (ofTree tree).imported added := by
    rw [detach, imported_loose]
    rfl
  have notTop : tree.size ≠ 0 := by
    obtain ⟨top, branches⟩ := tree
    exact Nat.succ_ne_zero _
  rw [stays]
  simp [attach, imported, ofTree, with_handles_label, mapBranches, notTop.symm]

/-- A tree that is imported into the document of a tree and added behind the children of a node
leaves a document of one tree, which has gained the places of the imported one. -/
theorem append_gains (added : SyntaxTree) (present : (ofTree tree).has parent = true)
    (free : ∀ relation ∈ relation?, relation ∉ (ofTree tree).relations parent) :
    ∃ after grown up further,
      perform (addChild parent relation? tree.size) ((ofTree tree).imported added) =
        (.ok ⟨⟩, after) ∧
      after.children parent = (ofTree tree).children parent ++ [tree.size] ∧
      after.trees = [grown] ∧ after.handles.Nodup ∧ grown.label.handle = after.root ∧
      Gains (top (withHandles 0 tree)).preorder (top grown).preorder
        ⟨withHandles tree.size added, up :: further⟩ := by
  have clear := append_clear added present free
  have children := imported_children added present
  obtain ⟨placed, found⟩ := place_of_handle ((has_iff _).mp present)
  obtain ⟨listed, named⟩ := place_found found
  have count : placed.tree.branches.length = (ofTree tree).childCount parent := by
    rw [childCount, Document.children, found, List.length_map, Tree.children, List.length_map]
  have places : (ofTree tree).places = preorderFrom [] (withHandles 0 tree) :=
    List.flatMap_singleton _ _
  have handles : ((preorderFrom [] (withHandles 0 tree)).map fun place =>
      place.label.handle).Nodup := by
    rw [← places, places_handles, of_tree_handles]
    exact List.nodup_range'
  have others : ((ofTree tree).imported added).otherChildren parent tree.size =
      (ofTree tree).childCount parent := congrArg List.length children
  rw [perform_add_child, others, perform_add_child_at, clear]
  dsimp only
  -- The tree gains the same places under whatever key.
  generalize relation?.getD _ = relation
  have label := change_branches_label parent (withBranch ((ofTree tree).childCount parent) relation
    (withHandles tree.size added)) (withHandles 0 tree)
  obtain ⟨up, further, gains⟩ := places_gained handles (.top (decide_eq_true label.symm))
    (places ▸ listed) named count
  have unique := imported_unique tree added
  refine ⟨_, _, up, further, rfl, ?_, congrArg Document.trees (attach_imported ..),
    (add_handles unique clear relation).nodup_iff.mpr unique, ?_, gains⟩
  · rw [add_children unique clear, if_pos rfl, children]
    exact List.insertIdx_length_self
  · rw [attach_imported, label, with_handles_label]

/-- The imported top stands at the place that has been gained, with the imported tree below it. -/
theorem gained_place {after : Document} {grown : Tree Entry} {next : Handle} {up : Step Entry}
    {further : List (Step Entry)} (trees : after.trees = [grown]) (unique : after.handles.Nodup)
    (gains : Gains (top (withHandles 0 tree)).preorder (top grown).preorder
      ⟨withHandles next added, up :: further⟩) :
    ∃ place, after.syntaxPlace? next = some place ∧ place.tree = added ∧ place.above ≠ [] ∧
      Gains (top tree).preorder (top (grown.map Entry.node)).preorder place := by
  have listed : Place.mk (withHandles next added) (up :: further) ∈ after.places := by
    obtain ⟨front, back, places, -⟩ := gains
    rw [Document.places, trees, List.flatMap_singleton, places]
    refine List.mem_append_left _ (List.mem_append_right _ ?_)
    exact (Place.mem_preorder_iff _ _).mpr .here
  have found := find_place unique listed
  rw [Place.label, with_handles_label] at found
  have syntaxGains := gains.map Entry.node
  rw [← Place.preorder_map, ← Place.preorder_map, without_handles] at syntaxGains
  exact ⟨_, congrArg (Option.map (Place.map Entry.node)) found, without_handles _ _,
    List.cons_ne_nil _ _, syntaxGains⟩

end TreeDelta.Document
