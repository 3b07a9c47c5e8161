import TreeDelta.Proofs.Alignment.Diagonal
import TreeDelta.Proofs.Alignment.OrderedCorrespondence
import TreeDelta.Proofs.CorrespondingSlots
import TreeDelta.Tree.Comparison

/-!
# Equal trees

Two trees are equal if they have the same shape and the same kinds and values; ids, keys and ends
play no part. Equal trees have the same numbers, so their alignment keeps every node with the one of
its number, also where subtrees repeat and many other alignments would cost nothing either.

Then every place of the right tree has the place at its own path as its counterpart. It is addressed
by that place, and as far as kinds and values go it is described by it. So both trees list the same
addresses, in the same order, and nothing is left to report, whatever ids they carry and however
often.
-/

namespace TreeDelta

namespace Tree

mutual

/-- Two trees are equal if they correspond with nodes that agree. -/
theorem agrees_eq_corresponds (left right : SyntaxTree) :
    left.agrees false false right = corresponds (Node.agrees false) left right := by
  cases left with
  | node leftTop leftBranches =>
    cases right with
    | node rightTop rightBranches =>
      rw [agrees, corresponds, agrees_branches_eq_corresponds leftBranches rightBranches]

/-- The same for two lists of branches. -/
theorem agrees_branches_eq_corresponds (left right : List (String × SyntaxTree)) :
    agreesBranches false false left right = correspondsBranches (Node.agrees false) left right := by
  cases left with
  | nil => cases right <;> rfl
  | cons first rest =>
    cases right with
    | nil => rfl
    | cons other others =>
      rw [agreesBranches, correspondsBranches, agrees_eq_corresponds first.2 other.2,
        agrees_branches_eq_corresponds rest others]
      rfl

end

end Tree

/-! ### The alignment -/

namespace Numbering

variable {goes : Node → Node → Bool}

/-- Whether two entries of numberings begin at the same number, with nodes that go together. -/
def EntriesGo (goes : Node → Node → Bool) (entry other : Node × Nat) : Prop :=
  goes entry.1 other.1 = true ∧ entry.2 = other.2

mutual

/-- Corresponding trees have corresponding entries. -/
theorem entries_correspond (first : Nat) {left right : SyntaxTree}
    (same : Tree.corresponds goes left right = true) :
    List.Forall₂ (EntriesGo goes) (entries first left) (entries first right) := by
  cases left with
  | node leftTop leftBranches =>
    cases right with
    | node rightTop rightBranches =>
      rw [Tree.corresponds, Bool.and_eq_true] at same
      exact List.rel_append (entries_of_branches_correspond first same.2) (.cons ⟨same.1, rfl⟩ .nil)

/-- The same for two lists of branches. -/
theorem entries_of_branches_correspond (first : Nat) {left right : List (String × SyntaxTree)}
    (same : Tree.correspondsBranches goes left right = true) :
    List.Forall₂ (EntriesGo goes) (entriesOfBranches first left)
      (entriesOfBranches first right) := by
  cases left with
  | nil =>
    cases right with
    | nil => exact .nil
    | cons other others => simp [Tree.correspondsBranches] at same
  | cons branch rest =>
    cases right with
    | nil => simp [Tree.correspondsBranches] at same
    | cons other others =>
      rw [Tree.correspondsBranches, Bool.and_eq_true] at same
      rw [entriesOfBranches, entriesOfBranches, Tree.size_of_corresponds same.1]
      exact List.rel_append (entries_correspond first same.1)
        (entries_of_branches_correspond _ same.2)

end

/-- Members at the same position of related lists are related, if what stands for missing ones
is. -/
theorem related_at {α β : Type} {Related : α → β → Prop} {members : List α} {others : List β}
    (related : List.Forall₂ Related members others) {blank : α} {otherBlank : β}
    (blanks : Related blank otherBlank) (index : Nat) :
    Related (members.getD index blank) (others.getD index otherBlank) := by
  induction related generalizing index with
  | nil => simpa using blanks
  | cons here _ inductionHypothesis =>
    cases index with
    | zero => exact here
    | succ index => exact inductionHypothesis index

/-- What a numbering says of a number is the entry of that number. -/
theorem entry_of_tree (tree : SyntaxTree) (index : Nat) :
    (entries 0 tree).getD index (Node.placeholder, 0) =
      ((ofTree tree).node index, (ofTree tree).first index) := by
  cases found : (entries 0 tree)[index]? <;> simp [node, first, ofTree, found]

/-- Corresponding trees have the same numbers, with nodes that go together. -/
theorem numbers_correspond {left right : SyntaxTree}
    (same : Tree.corresponds goes left right = true)
    (blank : goes Node.placeholder Node.placeholder = true) (index : Nat) :
    goes ((ofTree left).node index) ((ofTree right).node index) = true ∧
      (ofTree left).first index = (ofTree right).first index := by
  have blanks : EntriesGo goes (Node.placeholder, 0) (Node.placeholder, 0) := ⟨blank, rfl⟩
  have related := related_at (entries_correspond 0 same) blanks index
  rw [entry_of_tree, entry_of_tree] at related
  exact related

end Numbering

namespace Alignment

variable {C : Type} [CostScale C] {Sound : C → Prop}

/-- Equal trees have the same numbers, and renaming between them is free. -/
theorem equal_trees_alike (grounded : CostScale.Grounded C Sound) {left right : SyntaxTree}
    (equal : left.agrees false false right = true) :
    SelfLike Sound (Problem.ofTrees left right (CostModel.unit : CostModel C)) := by
  rw [Tree.agrees_eq_corresponds] at equal
  have numbers := Numbering.numbers_correspond equal (Node.agrees_self _)
  refine ⟨?_, fun index => (numbers index).2, fun index => if_pos (numbers index).1,
    fun index other => ?_, fun index => grounded.unit, fun index => grounded.unit⟩
  · have sizes := Tree.size_of_corresponds equal
    rwa [← Numbering.size_of_tree, ← Numbering.size_of_tree] at sizes
  · change Sound (if _ then CostScale.zero else CostScale.unit)
    split
    · exact grounded.zero
    · exact grounded.unit

end Alignment

/-! ### The script -/

/-- The places of two trees correspond with nodes that agree. -/
abbrev Place.Agrees : Place Node → Place Node → Prop :=
  Place.Corresponds (Node.agrees false) (Node.agrees false)

/-- Corresponding nodes of equal trees agree. -/
theorem Place.Agrees.labels {place other : Place Node} (agrees : Place.Agrees place other) :
    place.label.agrees false other.label = true := by
  cases agrees with
  | top labels => exact labels
  | child _ _ labels => exact labels

/-- Whether every place of the right tree has the corresponding place as its counterpart. -/
def Correspondence.PairsPaths (left right : Place Node) (mapping : Correspondence) : Prop :=
  ∀ place ∈ left.preorder, ∀ other ∈ right.preorder, place.path = other.path →
    mapping.left? other = some place

variable {left right : SyntaxTree} {mapping : Correspondence}

/-- Places of equal trees with the same path have the same number. -/
theorem Correspondence.number_of_path
    (equal : Tree.corresponds (Node.agrees false) left right = true) {place other : Place Node}
    (listed : place ∈ (Place.top left).preorder)
    (otherListed : other ∈ (Place.top right).preorder) (samePath : place.path = other.path) :
    ∃ index < left.size,
      placesAt (Place.top left) (Place.top right) (index, index) = (place, other) := by
  obtain ⟨labels, branches⟩ := (Tree.corresponds_iff _ _ _).mp equal
  have here : Place.Agrees (Place.top left) (Place.top right) := .top labels
  have postorder : List.Forall₂ Place.Agrees (Place.top left).postorder
      (Place.top right).postorder :=
    Place.postorder_from_corresponds here branches
  have inPostorder := (Place.top right).preorder_perm.mem_iff.mp otherListed
  obtain ⟨index, rightInside, found⟩ := List.getElem_of_mem inPostorder
  change index < (Place.top right).postorder.length at rightInside
  change (Place.top right).postorder[index] = other at found
  have leftInside : index < (Place.top left).postorder.length := postorder.length_eq ▸ rightInside
  have agrees : Place.Agrees (Place.top left).postorder[index] (Place.top right).postorder[index] :=
    (List.forall₂_iff_get.mp postorder).2 index leftInside rightInside
  have there : (Place.top left).postorder[index] = place := by
    have member : (Place.top left).postorder[index] ∈ (Place.top left).preorder :=
      (Place.top left).preorder_perm.mem_iff.mpr (List.getElem_mem leftInside)
    exact Place.Reaches.eq_of_path ((Place.mem_preorder_iff _ _).mp member)
      ((Place.mem_preorder_iff _ _).mp listed)
      (agrees.path.trans ((congrArg Place.path found).trans samePath.symm))
  refine ⟨index, Tree.postorder_length left ▸ leftInside, ?_⟩
  rw [placesAt, getElem!_pos (Place.top left).postorder index leftInside,
    getElem!_pos (Place.top right).postorder index rightInside, there, found]

/-- Pairing the places of equal trees by their numbers pairs those with the same path. -/
theorem Correspondence.by_postorder_equal
    (equal : Tree.corresponds (Node.agrees false) left right = true) :
    ∃ mapping, byPostorder (Place.top left) (Place.top right)
        ((List.range left.size).map fun index => (index, index)) = .ok mapping ∧
      PairsPaths (Place.top left) (Place.top right) mapping := by
  let pairs := (List.range left.size).map fun index => (index, index)
  have sizes := Tree.size_of_corresponds equal
  have within : ∀ pair ∈ pairs, Within left right pair := by
    intro pair member
    obtain ⟨index, inside, rfl⟩ := List.mem_map.mp member
    have bound := List.mem_range.mp inside
    exact ⟨bound, sizes ▸ bound⟩
  have ascending : pairs.Pairwise fun early late => early.1 < late.1 ∧ early.2 < late.2 :=
    List.pairwise_map.mpr (List.pairwise_lt_range.imp fun before => ⟨before, before⟩)
  have apart : Pairing.Apart (pairs.map (placesAt (Place.top left) (Place.top right))) :=
    ascending_apart within ascending
  refine ⟨_, (by_postorder_ascending within ascending).1, ?_⟩
  intro place listed other otherListed samePath
  obtain ⟨index, inside, paired⟩ := number_of_path equal listed otherListed samePath
  have member : (index, index) ∈ pairs := List.mem_map_of_mem (List.mem_range.mpr inside)
  have listedPair := List.mem_map_of_mem (f := placesAt (Place.top left) (Place.top right)) member
  rw [paired] at listedPair
  exact apart.left_of_member listedPair

/-- Where places are paired by their paths, those of the right tree are addressed by the ones that
correspond to them, and described by their kinds and values. -/
theorem Correspondence.PairsPaths.transfers
    (paired : PairsPaths (Place.top left) (Place.top right) mapping) :
    Transfers (Node.agrees false) (Node.agrees false) left right mapping where
  addressed place listed other otherListed agrees :=
    Address.through_paired (paired place listed other otherListed agrees.path)
  described place listed other otherListed agrees := by
    obtain ⟨kind, value⟩ := (Node.agrees_iff _ _).mp (Place.Agrees.labels agrees)
    rw [Slot.described, paired place listed other otherListed agrees.path]
    dsimp only
    split
    · exact ⟨rfl, rfl⟩
    · exact ⟨kind, value⟩

namespace Extraction

/-- Where both trees list the same addresses there is nothing to report. -/
theorem script_of_same_addresses {left right : Place Node}
    (same : rightAddresses mapping right = leftAddresses left) :
    withCorrespondence left right mapping = [] := by
  have addresses (address : Address) : address ∈ (leftSlots left).map Slot.address ↔
      address ∈ (rightSlots mapping right).map Slot.address := by
    rw [leftSlots, rightSlots, first_slots_addresses, first_slots_addresses]
    exact and_congr_left fun _ => by rw [← leftAddresses, ← rightAddresses, same]
  rw [withCorrespondence, without_nothing fun address => (addresses address).mp,
    without_nothing fun address => (addresses address).mpr]
  rfl

/-- The alignment of two equal trees keeps every node with the one of its own number, and the edit
script for it is empty.

The alignment is the diagonal. Along equal trees the diagonal carries addresses over to themselves,
so both sides have the same slots and there is nothing to report. -/
theorem equal_trees_unchanged {C : Type} [CostScale C] {Sound : C → Prop}
    (grounded : CostScale.Grounded C Sound) (left right : SyntaxTree)
    (equal : left.agrees false false right = true) :
    Alignment.correspondence (CostModel.unit : CostModel C) left right =
        (List.range left.size).map (fun index => (index, index)) ∧
      aligned (Alignment.correspondence (CostModel.unit : CostModel C)) (Place.top left)
        (Place.top right) = .ok [] := by
  have diagonal := Alignment.correspondence_diagonal grounded CostModel.unit left right
    (Alignment.equal_trees_alike grounded equal)
  rw [Tree.agrees_eq_corresponds] at equal
  obtain ⟨mapping, accepted, paired⟩ := Correspondence.by_postorder_equal equal
  obtain ⟨labels, branches⟩ := (Tree.corresponds_iff _ _ _).mp equal
  have places : List.Forall₂ Place.Agrees (Place.top left).preorder (Place.top right).preorder :=
    Place.preorder_from_corresponds (.top labels) branches
  have addresses : rightAddresses mapping (Place.top right) = leftAddresses (Place.top left) :=
    addresses_transferred paired.transfers (List.Subset.refl _) (List.Subset.refl _) places
  refine ⟨diagonal, ?_⟩
  have aligner : Alignment.correspondence (CostModel.unit : CostModel C) (Place.top left).tree
      (Place.top right).tree = (List.range left.size).map fun index => (index, index) := diagonal
  rw [aligned, aligner, accepted, Except.map, script_of_same_addresses addresses]

/-- Two calls with the same argument are told apart by their ids in one list and have one id in the
other, where the second argument and a key are different as well. Each call stays the call of its
own number, and nothing is reported. -/
theorem repeated_calls_unchanged :
    let left : SyntaxTree := .node (Node.bare "list")
      [("0", .node { Node.bare "call" with id? := some "x" } [("0", .leaf (Node.bare "name"))]),
        ("1", .node { Node.bare "call" with id? := some "y" } [("0", .leaf (Node.bare "name"))])]
    let right : SyntaxTree := .node (Node.bare "list")
      [("0", .node { Node.bare "call" with id? := some "y" } [("0", .leaf (Node.bare "name"))]),
        ("last", .node { Node.bare "call" with id? := some "y" }
          [("0", .leaf { Node.bare "name" with id? := some "x" })])]
    left.agrees false false right = true ∧
      Alignment.correspondence (CostModel.unit : CostModel Rat) left right =
        [(0, 0), (1, 1), (2, 2), (3, 3), (4, 4)] ∧
      aligned (Alignment.correspondence (CostModel.unit : CostModel Rat)) (Place.top left)
        (Place.top right) = .ok [] := by
  intro left right
  have equal : left.agrees false false right = true := by decide
  have positive : (0 : Rat) ≤ CostScale.unit := by decide
  exact ⟨equal, equal_trees_unchanged (CostScale.grounded_of_exact positive) left right equal⟩

end Extraction

end TreeDelta
