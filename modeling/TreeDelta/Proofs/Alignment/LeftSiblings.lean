import TreeDelta.Proofs.Alignment.TreeDistance
import TreeDelta.Proofs.Tree.Preorder

/-!
# Which nodes are key roots

A node is numbered after its children, and its run of numbers begins where the run of its first
child begins. The run of any other child begins later. So walking up from a node, one comes to a
node that begins where it begins for as long as one comes from a first child, and no further. The
key roots, which no later node shares its first number with, are therefore the top of the tree and
the nodes that have a sibling to their left.

First numbers and key roots can be found in other ways than by their definitions: the first number
of a node is that of its first child, or its own if it has no children, and the key roots are what a
single walk from the last number back to the first one picks out if it passes over every number that
begins where an earlier one has begun.
-/

namespace TreeDelta

variable {α : Type}

namespace Place

/-- The second of two numbered places is the parent of the first, has a later number, and does not
begin after it. It begins where its first child begins, and before its other children begin. -/
structure ChildOf (lower upper : Place α × Nat) : Prop where
  parent : lower.1.parent? = some upper.1
  before : lower.2 < upper.2
  begins : upper.2 + lower.1.tree.size ≤ lower.2 + upper.1.tree.size
  first_iff : upper.2 + lower.1.tree.size = lower.2 + upper.1.tree.size ↔
    lower.1.index? = some 0

mutual

/-- In the places of a subtree, numbered in post-order from `base` on, every place but the top is
the child of another one. -/
theorem postorder_from_parents (above : List (Step α)) (tree : Tree α) (base : Nat) :
    ∀ entry ∈ (postorderFrom above tree).zipIdx base,
      entry = (⟨tree, above⟩, base + tree.size - 1) ∨
        ∃ upper ∈ (postorderFrom above tree).zipIdx base, ChildOf entry upper := by
  cases tree with
  | node label branches =>
    have count := postorder_branches_length (.node label branches) above 0 branches
    have parents := postorder_branches_parents (.node label branches) above 0 branches base
      (base + Tree.sizeBranches branches) base (Nat.le_refl base) (by simp) rfl
      (by rw [Tree.size, Nat.add_assoc])
    intro entry member
    simp only [postorderFrom, List.zipIdx_append, List.zipIdx_singleton, count] at member ⊢
    rcases List.mem_append.mp member with below | top
    · refine Or.inr ?_
      rcases parents entry below with child | ⟨upper, inside, child⟩
      · exact ⟨_, List.mem_append_right _ List.mem_cons_self, child⟩
      · exact ⟨upper, List.mem_append_left _ inside, child⟩
    · exact Or.inl (by simpa [Tree.size] using top)

/-- The same for the branches of `parent` from `index` on, whose numbers begin with `base`. The
numbers of the whole subtree of `parent` begin with `start` and end with `last`. -/
theorem postorder_branches_parents (parent : Tree α) (above : List (Step α)) (index : Nat)
    (branches : List (String × Tree α)) (base last start : Nat) (notBefore : start ≤ base)
    (firstBranch : base = start ↔ index = 0) (ends : base + Tree.sizeBranches branches = last)
    (room : last + 1 = start + parent.size) :
    ∀ entry ∈ (postorderBranches parent above index branches).zipIdx base,
      ChildOf entry (⟨parent, above⟩, last) ∨
        ∃ upper ∈ (postorderBranches parent above index branches).zipIdx base,
          ChildOf entry upper := by
  cases branches with
  | nil => simp [postorderBranches]
  | cons branch rest =>
    have nonempty := branch.2.last_inside
    have count := postorder_from_length (⟨parent, index⟩ :: above) branch.2
    have first := postorder_from_parents (⟨parent, index⟩ :: above) branch.2 base
    rw [Tree.sizeBranches] at ends
    have later := postorder_branches_parents parent above (index + 1) rest (base + branch.2.size)
      last start (by omega) (by omega) (by omega) room
    intro entry member
    simp only [postorderBranches, List.zipIdx_append, count] at member ⊢
    rcases List.mem_append.mp member with inFirst | inRest
    · rcases first entry inFirst with rfl | ⟨upper, inside, child⟩
      · refine Or.inl ⟨rfl, ?_, ?_, ?_⟩
        · dsimp only
          omega
        · dsimp only
          omega
        · simp only [index?, List.head?_cons, Option.map_some, Option.some.injEq]
          omega
      · exact Or.inr ⟨upper, List.mem_append_left _ inside, child⟩
    · rcases later entry inRest with child | ⟨upper, inside, child⟩
      · exact Or.inl child
      · exact Or.inr ⟨upper, List.mem_append_right _ inside, child⟩

end

/-- Whoever stands above a place is its parent or stands above its parent. -/
theorem above_parent {upper lower parent : Place α} (stands : upper.IsAbove lower)
    (child : lower.parent? = some parent) : upper.path = parent.path ∨ upper.IsAbove parent := by
  obtain ⟨tree, above⟩ := lower
  cases above with
  | nil => simp [parent?] at child
  | cons step further =>
    obtain rfl : (⟨step.tree, further⟩ : Place α) = parent := Option.some.inj child
    obtain ⟨leading, different⟩ := stands
    rw [path_step] at leading different
    have shorter := (List.prefix_concat_iff.mp leading).resolve_left different
    by_cases same : upper.path = (Place.mk step.tree further).path
    · exact Or.inl same
    · exact Or.inr ⟨shorter, same⟩

end Place

namespace Tree

/-- The node with a post-order number has a sibling to its left. -/
def HasLeftSibling (tree : Tree α) (index : Nat) : Prop :=
  ∃ place ∈ (Place.top tree).postorder[index]?, ∃ earlier, place.index? = some (earlier + 1)

/-- Every node but the top has a parent with a later number. -/
theorem parent_number (tree : Tree α) (index : Nat) (place : Place α)
    (found : (Place.top tree).postorder[index]? = some place) :
    place = Place.top tree ∧ index = tree.size - 1 ∨
      ∃ parent upper, (Place.top tree).postorder[upper]? = some parent ∧
        Place.ChildOf (place, index) (parent, upper) := by
  have member : (place, index) ∈ (Place.top tree).postorder.zipIdx 0 :=
    List.mem_zipIdx_iff_getElem?.mpr found
  rcases Place.postorder_from_parents [] tree 0 _ member with top | ⟨upper, inside, child⟩
  · obtain ⟨rfl, rfl⟩ := Prod.mk.inj top
    exact Or.inl ⟨rfl, by rw [Nat.zero_add]⟩
  · exact Or.inr ⟨upper.1, upper.2, List.mem_zipIdx_iff_getElem?.mp inside, child⟩

/-- A number belongs to one path. -/
theorem number_of_path (tree : Tree α) (first second : Nat) (place other : Place α)
    (foundFirst : (Place.top tree).postorder[first]? = some place)
    (foundSecond : (Place.top tree).postorder[second]? = some other)
    (same : place.path = other.path) : first = second := by
  rcases Nat.lt_trichotomy first second with before | here | after
  · exact absurd same (numbers_tell tree first second place other foundFirst foundSecond
      before).path_ne
  · exact here
  · exact absurd same.symm (numbers_tell tree second first other place foundSecond foundFirst
      after).path_ne

/-- Whoever stands above a node has the number of its parent or stands above its parent. -/
theorem above_parent_number (tree : Tree α) (upper middle lower : Nat) (place parent : Place α)
    (found : (Place.top tree).postorder[lower]? = some place)
    (foundParent : (Place.top tree).postorder[middle]? = some parent)
    (child : place.parent? = some parent) (stands : tree.Above upper lower) :
    upper = middle ∨ tree.Above upper middle := by
  obtain ⟨up, foundUp, low, foundLow, above⟩ := stands
  obtain rfl : low = place := Option.some.inj (foundLow.symm.trans found)
  rcases Place.above_parent above child with same | higher
  · exact Or.inl (number_of_path tree upper middle up parent foundUp foundParent same)
  · exact Or.inr ((above_of_found tree upper middle up parent foundUp foundParent).mpr higher)

end Tree

namespace Numbering

/-- How the first numbers of a node and of its parent compare. -/
theorem first_of_parent (tree : SyntaxTree) {lower upper : Nat} {place parent : Place Node}
    (found : (Place.top tree).postorder[lower]? = some place)
    (foundParent : (Place.top tree).postorder[upper]? = some parent)
    (child : Place.ChildOf (place, lower) (parent, upper)) :
    (ofTree tree).first upper ≤ (ofTree tree).first lower ∧
      ((ofTree tree).first upper = (ofTree tree).first lower ↔ place.index? = some 0) := by
  have room := tree.subtree_size_le lower place found
  have parentRoom := tree.subtree_size_le upper parent foundParent
  have begins := child.begins
  have firstIff := child.first_iff
  dsimp only at begins firstIff
  rw [first_of_found tree _ _ found, first_of_found tree _ _ foundParent, ← firstIff]
  omega

/-- A node whose number is that of a key root is no first child. -/
theorem no_first_child (tree : SyntaxTree) {index : Nat} {place : Place Node}
    (found : (Place.top tree).postorder[index]? = some place)
    (isRoot : index ∈ (ofTree tree).keyRoots) : place.index? ≠ some 0 := by
  rcases tree.parent_number index place found with ⟨rfl, -⟩ | ⟨parent, upper, foundParent, child⟩
  · simp [Place.index?, Place.top]
  · intro first
    have same := (first_of_parent tree found foundParent child).2.mpr first
    have inside : upper < (ofTree tree).size := by
      rw [size_of_tree, ← tree.postorder_length]
      exact (List.getElem?_eq_some_iff.mp foundParent).1
    exact ((mem_key_roots index).mp isRoot).2 upper child.before inside same

/-- No later node begins where a node begins that has a sibling to its left: a later node that does
would stand above the parent, and the parent begins before. -/
theorem left_sibling_root (tree : SyntaxTree) {index : Nat} (sibling : tree.HasLeftSibling index) :
    index ∈ (ofTree tree).keyRoots := by
  obtain ⟨place, found, earlier, position⟩ := sibling
  have inside : index < tree.size := by
    rw [← tree.postorder_length]
    exact (List.getElem?_eq_some_iff.mp found).1
  obtain ⟨rfl, -⟩ | ⟨parent, upper, foundParent, child⟩ := tree.parent_number index place found
  · simp [Place.index?, Place.top] at position
  obtain ⟨notAfter, sameIff⟩ := first_of_parent tree found foundParent child
  have before : (ofTree tree).first upper < (ofTree tree).first index := by
    refine lt_of_le_of_ne notAfter fun same => ?_
    rw [sameIff.mp same] at position
    simp at position
  refine (mem_key_roots index).mpr ⟨by rwa [size_of_tree], fun later after laterInside same => ?_⟩
  rw [size_of_tree] at laterInside
  have begins := first_le_of_tree tree index inside
  have stands : tree.Above later index :=
    (above_iff_over tree later index laterInside).mpr ⟨same ▸ begins, after⟩
  rcases tree.above_parent_number later upper index place parent found foundParent child.parent
    stands with rfl | higher
  · omega
  · have covers := (above_iff_over tree later upper laterInside).mp higher
    have outer := (nested_of_tree tree).first_mono later (by rwa [size_of_tree]) upper covers.1
      covers.2.le
    omega

/-- The key roots of a tree are its top and the nodes that have a sibling to their left. -/
theorem key_root_iff (tree : SyntaxTree) (index : Nat) :
    index ∈ (ofTree tree).keyRoots ↔ index = tree.size - 1 ∨ tree.HasLeftSibling index := by
  have last := tree.last_inside
  constructor
  · intro isRoot
    have inside := ((mem_key_roots index).mp isRoot).1
    rw [size_of_tree, ← tree.postorder_length] at inside
    have found := List.getElem?_eq_getElem inside
    rcases tree.parent_number index _ found with ⟨-, top⟩ | ⟨parent, upper, -, child⟩
    · exact Or.inl top
    · refine Or.inr ⟨_, found, ?_⟩
      have noFirst := no_first_child tree found isRoot
      have below := child.parent
      generalize (Place.top tree).postorder[index] = place at noFirst below
      obtain ⟨subtree, above⟩ := place
      cases above with
      | nil => simp [Place.parent?] at below
      | cons step further =>
        obtain ⟨earlier, position⟩ : ∃ earlier, step.index = earlier + 1 := by
          refine Nat.exists_eq_succ_of_ne_zero fun first => noFirst ?_
          simp [Place.index?, first]
        exact ⟨earlier, by simp [Place.index?, position]⟩
  · rintro (rfl | sibling)
    · refine (mem_key_roots _).mpr ⟨by rwa [size_of_tree], fun later after laterInside => ?_⟩
      rw [size_of_tree] at laterInside
      omega
    · exact left_sibling_root tree sibling

/-- Each number begins where exactly one key root begins, which is not below it. -/
theorem only_key_root {numbering : Numbering} (index : Nat) (inside : index < numbering.size) :
    ∃ root, (root ∈ numbering.keyRoots ∧ numbering.first root = numbering.first index ∧
        index ≤ root) ∧
      ∀ other ∈ numbering.keyRoots, numbering.first other = numbering.first index →
        other = root := by
  obtain ⟨root, isRoot, notBelow, begins⟩ := exists_key_root index inside
  refine ⟨root, ⟨isRoot, begins, notBelow⟩, fun other otherRoot otherBegins => ?_⟩
  obtain ⟨rootInside, rootHighest⟩ := (mem_key_roots root).mp isRoot
  obtain ⟨otherInside, otherHighest⟩ := (mem_key_roots other).mp otherRoot
  have same : numbering.first other = numbering.first root := otherBegins.trans begins.symm
  rcases Nat.lt_trichotomy other root with before | here | after
  · exact absurd same.symm (otherHighest root before rootInside)
  · exact here
  · exact absurd same (rootHighest other after otherInside)

/-- A walk over some numbers, the last one first, that keeps the first numbers it has seen and picks
out every number that begins where none of the later ones has begun. -/
def scan (numbering : Numbering) (indices : List Nat) : List Nat × List Nat :=
  indices.foldr (fun index (seen, roots) =>
    if numbering.first index ∈ seen then (seen, roots)
    else (numbering.first index :: seen, index :: roots)) ([], [])

/-- A walk from the last number back has seen the first numbers of all numbers that it has passed,
and has picked out the key roots among them.

The induction is on how many numbers have been passed. The next one is a key root exactly if no
number behind it has the same first number, and the walk looks this up among the first numbers that
it has seen. -/
theorem scan_from (numbering : Numbering) (count start : Nat)
    (reach : start + count = numbering.size) :
    (∀ first, first ∈ (numbering.scan (List.range' start count)).1 ↔
      ∃ index, start ≤ index ∧ index < numbering.size ∧ numbering.first index = first) ∧
    (numbering.scan (List.range' start count)).2 =
      (List.range' start count).filter numbering.isKeyRoot := by
  induction count generalizing start with
  | zero =>
    refine ⟨fun first => ?_, rfl⟩
    simp only [List.range'_zero, scan, List.foldr_nil, List.not_mem_nil, false_iff]
    rintro ⟨index, notBefore, inside, -⟩
    omega
  | succ count inductionHypothesis =>
    obtain ⟨seen, picked⟩ := inductionHypothesis (start + 1) (by omega)
    have rootIff : numbering.isKeyRoot start = true ↔
        numbering.first start ∉ (numbering.scan (List.range' (start + 1) count)).1 := by
      have listed : numbering.isKeyRoot start = true ↔ start ∈ numbering.keyRoots := by
        rw [keyRoots, List.mem_filter, List.mem_range]
        exact (and_iff_right (by omega)).symm
      rw [listed, mem_key_roots, seen, and_iff_right (by omega : start < numbering.size)]
      push Not
      exact Iff.rfl
    have next : numbering.scan (List.range' start (count + 1)) =
        if numbering.first start ∈ (numbering.scan (List.range' (start + 1) count)).1 then
          numbering.scan (List.range' (start + 1) count)
        else (numbering.first start :: (numbering.scan (List.range' (start + 1) count)).1,
          start :: (numbering.scan (List.range' (start + 1) count)).2) := by
      rw [List.range'_succ]
      rfl
    have passed (first : Nat) : (∃ index, start ≤ index ∧ index < numbering.size ∧
        numbering.first index = first) ↔ numbering.first start = first ∨
          first ∈ (numbering.scan (List.range' (start + 1) count)).1 := by
      rw [seen]
      constructor
      · rintro ⟨index, notBefore, inside, begins⟩
        rcases Nat.eq_or_lt_of_le notBefore with rfl | after
        · exact Or.inl begins
        · exact Or.inr ⟨index, after, inside, begins⟩
      · rintro (begins | ⟨index, after, inside, begins⟩)
        · exact ⟨start, Nat.le_refl start, by omega, begins⟩
        · exact ⟨index, by omega, inside, begins⟩
    rw [next, List.range'_succ, List.filter_cons]
    split
    · next again =>
      have noRoot : ¬numbering.isKeyRoot start = true := fun root => rootIff.mp root again
      refine ⟨fun first => ?_, by rw [if_neg noRoot, picked]⟩
      rw [passed]
      refine ⟨Or.inr, ?_⟩
      rintro (rfl | before)
      · exact again
      · exact before
    · next new =>
      refine ⟨fun first => ?_, by rw [if_pos (rootIff.mpr new), picked]⟩
      rw [passed, List.mem_cons, eq_comm]

/-- One walk from the last number back to the first one picks out the key roots. -/
theorem scan_key_roots (numbering : Numbering) :
    (numbering.scan (List.range numbering.size)).2 = numbering.keyRoots := by
  rw [keyRoots, List.range_eq_range']
  exact (scan_from numbering numbering.size 0 (Nat.zero_add _)).2

/-- A node without children begins with its own number. -/
theorem first_of_leaf (tree : SyntaxTree) {index : Nat} {place : Place Node}
    (found : (Place.top tree).postorder[index]? = some place) (childless : place.children = []) :
    (ofTree tree).first index = index := by
  obtain ⟨⟨label, branches⟩, above⟩ := place
  obtain rfl : branches = [] := by simpa [Place.children, Tree.children] using childless
  rw [first_of_found tree _ _ found]
  simp [Tree.size, Tree.sizeBranches]

/-- A node with children begins where its first child begins, which has a smaller number. -/
theorem first_of_first_child (tree : SyntaxTree) {index : Nat} {place child : Place Node}
    (found : (Place.top tree).postorder[index]? = some place)
    (first : place.children.head? = some child) :
    ∃ lower < index, (Place.top tree).postorder[lower]? = some child ∧
      (ofTree tree).first index = (ofTree tree).first lower := by
  obtain ⟨subtree, branch, rfl⟩ : ∃ subtree, place.tree.children[0]? = some subtree ∧
      place.down 0 subtree = child := by
    simpa [Place.children, List.head?_eq_getElem?] using first
  have listed : place.down 0 subtree ∈ (Place.top tree).postorder :=
    (Place.top tree).preorder_perm.mem_iff.mp (Place.listed_down tree [] place 0 subtree
      ((Place.top tree).preorder_perm.mem_iff.mpr (List.mem_of_getElem? found)) branch)
  obtain ⟨lower, foundChild⟩ := List.mem_iff_getElem?.mp listed
  rcases tree.parent_number lower _ foundChild with ⟨top, -⟩ | ⟨parent, upper, foundParent, below⟩
  · exact absurd (congrArg Place.above top) (List.cons_ne_nil _ _)
  · obtain rfl : place = parent := Option.some.inj below.parent
    obtain rfl := tree.number_of_path upper index place place foundParent found rfl
    exact ⟨lower, below.before, foundChild,
      (first_of_parent tree foundChild foundParent below).2.mpr rfl⟩

/-- What the numbering of a tree is to say of the tree. -/
structure Describes (numbering : Numbering) (tree : SyntaxTree) : Prop where
  /-- The nodes are numbered in post-order. -/
  nodes : numbering.nodes.toList = tree.postorder
  /-- Each node has a first number. -/
  firsts : numbering.firsts.size = tree.size
  /-- The subtree of a node has the numbers from its first number to its own, and no others. -/
  subtrees : ∀ index < tree.size, ∀ inner,
    tree.InSubtree index inner ↔ numbering.first index ≤ inner ∧ inner ≤ index
  /-- A node without children begins with itself. -/
  leaves : ∀ index place, (Place.top tree).postorder[index]? = some place →
    place.children = [] → numbering.first index = index
  /-- A node with children begins where its first child begins. -/
  firstChildren : ∀ index place child, (Place.top tree).postorder[index]? = some place →
    place.children.head? = some child → ∃ lower < index,
      (Place.top tree).postorder[lower]? = some child ∧
        numbering.first index = numbering.first lower
  /-- The key roots are listed in strictly ascending order. -/
  ascending : numbering.keyRoots.Pairwise (· < ·)
  /-- The last number is that of the top. -/
  top : (Place.top tree).postorder[tree.size - 1]? = some (Place.top tree)
  /-- The last key root is the top. -/
  last : numbering.keyRoots.getLast? = some (tree.size - 1)
  /-- The key roots are the top and the nodes that have a sibling to their left. -/
  siblings : ∀ index, index ∈ numbering.keyRoots ↔
    index = tree.size - 1 ∨ tree.HasLeftSibling index
  /-- One walk from the last number back picks out the key roots. -/
  scanned : (numbering.scan (List.range tree.size)).2 = numbering.keyRoots
  /-- Each node begins where exactly one key root begins, and that is not below it. -/
  ownRoot : ∀ index < tree.size, ∃ root,
    (root ∈ numbering.keyRoots ∧ numbering.first root = numbering.first index ∧ index ≤ root) ∧
      ∀ other ∈ numbering.keyRoots, numbering.first other = numbering.first index → other = root

/-- The last of an ascending list is the member that is not below any other. -/
theorem last_of_ascending {indices : List Nat} (ascending : indices.Pairwise (· < ·)) {last : Nat}
    (member : last ∈ indices) (highest : ∀ index ∈ indices, index ≤ last) :
    indices.getLast? = some last := by
  rcases List.eq_nil_or_concat indices with rfl | ⟨front, final, rfl⟩
  · simp at member
  · rw [List.concat_eq_append] at ascending member highest ⊢
    have before := (List.pairwise_append.mp ascending).2.2
    have notAbove := highest final (by simp)
    rcases List.mem_append.mp member with inFront | here
    · have below := before last inFront final List.mem_cons_self
      omega
    · simp [List.mem_singleton.mp here]

/-- For every tree: the nodes are numbered in post-order, the subtree of each node has the run of
numbers from its first number to its own, and the key roots ascend to the top and are the top and
the nodes with a sibling to their left, so that every node has exactly one key root. -/
theorem tree_described (tree : SyntaxTree) : (ofTree tree).Describes tree where
  nodes := by
    have labels : (Prod.fst ∘ fun entry : Place Node × Nat =>
        (entry.1.label, entry.2 + 1 - entry.1.tree.size)) = Place.label ∘ Prod.fst := rfl
    rw [ofTree, List.toList_toArray, entries_of_tree, List.map_map, labels, ← List.map_map,
      List.zipIdx_map_fst]
    exact Place.postorder_from_labels [] tree
  firsts := by simp [ofTree, entries_of_tree, Tree.postorder_length]
  subtrees index inside inner := Alignment.in_subtree_iff tree index inner inside
  leaves _ _ found childless := first_of_leaf tree found childless
  firstChildren _ _ _ found first := first_of_first_child tree found first
  ascending := key_roots_ascending
  top := Place.postorder_last (Place.top tree)
  last := by
    refine last_of_ascending key_roots_ascending ((key_root_iff tree _).mpr (Or.inl rfl)) ?_
    intro index isRoot
    have inside := ((mem_key_roots index).mp isRoot).1
    rw [size_of_tree] at inside
    omega
  siblings := key_root_iff tree
  scanned := by
    rw [← size_of_tree tree]
    exact scan_key_roots (ofTree tree)
  ownRoot index inside := only_key_root index (by rwa [size_of_tree])

/-- In a list of two lists, the first with two words and the second with one, the key roots are the
second word, the second list and the top. -/
example : (ofTree (.node (Node.bare "list")
    [("0", .node (Node.bare "list")
        [("0", .leaf (Node.bare "a")), ("1", .leaf (Node.bare "b"))]),
      ("1", .node (Node.bare "list") [("0", .leaf (Node.bare "c"))])])).keyRoots = [1, 4, 5] := by
  decide +kernel

end Numbering

end TreeDelta
