import Mathlib.Data.List.Infix
import TreeDelta.Tree.Place

/-!
# Post-order numbers and ancestors

The nodes of a tree are named here by their post-order numbers. A node stands above another when its
path is a proper prefix of the other's path, so the relation is read off the tree and not off the
numbers. The main statement finds it in the numbers all the same: the nodes of a subtree of `n`
nodes with the top `i` are exactly those with the numbers from `i + 1 - n` to `i`.
-/

namespace TreeDelta

variable {α : Type}

namespace Place

/-- A place stands above another if its path is a proper prefix of the other's. -/
def IsAbove (upper lower : Place α) : Prop :=
  upper.path <+: lower.path ∧ upper.path ≠ lower.path

instance (upper lower : Place α) : Decidable (upper.IsAbove lower) :=
  inferInstanceAs (Decidable (_ ∧ _))

/-- One step down adds one index to the path. -/
theorem path_step (parent child : Tree α) (above : List (Step α)) (index : Nat) :
    (Place.mk child (⟨parent, index⟩ :: above)).path =
      (Place.mk parent above).path ++ [index] := by
  simp [path]

mutual

/-- A subtree has as many places as nodes. -/
theorem postorder_from_length (above : List (Step α)) (tree : Tree α) :
    (postorderFrom above tree).length = tree.size := by
  cases tree with
  | node label branches =>
    simp [postorderFrom, Tree.size, postorder_branches_length _ above 0 branches]

/-- A list of branches has as many places as nodes. -/
theorem postorder_branches_length (parent : Tree α) (above : List (Step α)) (index : Nat)
    (branches : List (String × Tree α)) :
    (postorderBranches parent above index branches).length = Tree.sizeBranches branches := by
  cases branches with
  | nil => rfl
  | cons branch rest =>
    simp [postorderBranches, Tree.sizeBranches, postorder_from_length _ branch.2,
      postorder_branches_length parent above (index + 1) rest]

end

/-- A place has as many places below it, itself included, as its tree has nodes. -/
theorem postorder_length (place : Place α) : place.postorder.length = place.tree.size :=
  postorder_from_length place.above place.tree

mutual

/-- The places of a subtree in post-order carry its labels in post-order. -/
theorem postorder_from_labels (above : List (Step α)) (tree : Tree α) :
    (postorderFrom above tree).map label = tree.postorder := by
  cases tree with
  | node top branches =>
    simp [postorderFrom, Tree.postorder, postorder_branches_labels _ above 0 branches, label]

/-- The places of a list of branches in post-order carry their labels in post-order. -/
theorem postorder_branches_labels (parent : Tree α) (above : List (Step α)) (index : Nat)
    (branches : List (String × Tree α)) :
    (postorderBranches parent above index branches).map label =
      Tree.postorderBranches branches := by
  cases branches with
  | nil => rfl
  | cons branch rest =>
    simp [postorderBranches, Tree.postorderBranches, postorder_from_labels _ branch.2,
      postorder_branches_labels parent above (index + 1) rest]

end

mutual

/-- The path to the top of a subtree is a prefix of the path to each of its places. -/
theorem postorder_from_prefix (above : List (Step α)) (tree : Tree α) (place : Place α)
    (member : place ∈ postorderFrom above tree) :
    (Place.mk tree above).path <+: place.path := by
  cases tree with
  | node label branches =>
    simp only [postorderFrom, List.mem_append, List.mem_singleton] at member
    rcases member with below | rfl
    · obtain ⟨index, _, leading⟩ := postorder_branches_prefix _ above 0 branches place below
      exact (List.prefix_append _ _).trans leading
    · exact List.prefix_rfl

/-- The path to a place below `parent` leads through one of the branches. -/
theorem postorder_branches_prefix (parent : Tree α) (above : List (Step α)) (index : Nat)
    (branches : List (String × Tree α)) (place : Place α)
    (member : place ∈ postorderBranches parent above index branches) :
    ∃ branch, index ≤ branch ∧ (Place.mk parent above).path ++ [branch] <+: place.path := by
  cases branches with
  | nil => simp [postorderBranches] at member
  | cons branch rest =>
    simp only [postorderBranches, List.mem_append] at member
    rcases member with first | later
    · have leading := postorder_from_prefix _ branch.2 place first
      rw [path_step] at leading
      exact ⟨index, Nat.le_refl index, leading⟩
    · obtain ⟨found, bound, leading⟩ :=
        postorder_branches_prefix parent above (index + 1) rest place later
      exact ⟨found, by omega, leading⟩

end

/-- Paths that lead through different branches of one place are no prefixes of each other. -/
theorem diverging (stem first second : Path) (left right : Nat) (different : left ≠ right)
    (throughLeft : stem ++ [left] <+: first) (throughRight : stem ++ [right] <+: second) :
    ¬first <+: second := by
  intro leading
  have both : stem ++ [left] <+: stem ++ [right] :=
    List.prefix_of_prefix_length_le (throughLeft.trans leading) throughRight (by simp)
  have same : stem ++ [left] = stem ++ [right] := both.eq_of_length (by simp)
  exact different (by simpa using same)

/-- A place stands above every place that is reached through one of its branches, and never the
other way round. -/
theorem above_of_branch (upper lower : Place α) (branch : Nat)
    (leading : upper.path ++ [branch] <+: lower.path) :
    upper.IsAbove lower ∧ ¬lower.IsAbove upper := by
  have longer : upper.path.length + 1 ≤ lower.path.length := by simpa using leading.length_le
  refine ⟨⟨(List.prefix_append _ _).trans leading, ?_⟩, ?_⟩
  · intro same
    rw [same] at longer
    omega
  · rintro ⟨shorter, _⟩
    have bound := shorter.length_le
    omega

/-- How the numbers of two places of a tree tell whether the later one stands above the earlier
one. The earlier one never stands above the later one, and their paths differ. -/
structure NumbersTell (early late : Place α × Nat) : Prop where
  above_iff : late.1.IsAbove early.1 ↔ late.2 + 1 ≤ early.2 + late.1.tree.size
  not_above : ¬early.1.IsAbove late.1
  path_ne : early.1.path ≠ late.1.path

mutual

/-- In the places of a subtree, numbered from `base` on, every subtree keeps to the numbers from
`base` on, and the numbers tell which places stand above which. -/
theorem postorder_from_numbered (above : List (Step α)) (tree : Tree α) (base : Nat) :
    (∀ entry ∈ (postorderFrom above tree).zipIdx base,
      base + entry.1.tree.size ≤ entry.2 + 1) ∧
    ((postorderFrom above tree).zipIdx base).Pairwise NumbersTell := by
  cases tree with
  | node label branches =>
    obtain ⟨ranges, pairs⟩ :=
      postorder_branches_numbered (.node label branches) above 0 branches base
    have count := postorder_branches_length (.node label branches) above 0 branches
    simp only [postorderFrom, List.zipIdx_append, List.zipIdx_singleton]
    constructor
    · intro entry member
      rcases List.mem_append.mp member with below | top
      · exact ranges entry below
      · obtain rfl := List.mem_singleton.mp top
        simp only [Tree.size, count]
        omega
    · refine List.pairwise_append.mpr ⟨pairs, List.pairwise_singleton _ _, ?_⟩
      intro entry below last top
      obtain rfl := List.mem_singleton.mp top
      have inBranches : entry.1 ∈ postorderBranches (.node label branches) above 0 branches :=
        List.fst_mem_of_mem_zipIdx below
      obtain ⟨branch, _, leading⟩ :=
        postorder_branches_prefix (.node label branches) above 0 branches entry.1 inBranches
      have upward := above_of_branch ⟨.node label branches, above⟩ entry.1 branch leading
      have fromBase : base ≤ entry.2 := List.le_snd_of_mem_zipIdx below
      refine ⟨iff_of_true upward.1 ?_, upward.2, fun same => upward.1.2 same.symm⟩
      simp only [Tree.size, count]
      omega

/-- The same for a list of branches.

Inside the first branch and among the others the statement holds already. A place of the first
branch and one of the others have paths that diverge at the index, so neither stands above the
other, and the numbers of the first branch are all smaller. -/
theorem postorder_branches_numbered (parent : Tree α) (above : List (Step α)) (index : Nat)
    (branches : List (String × Tree α)) (base : Nat) :
    (∀ entry ∈ (postorderBranches parent above index branches).zipIdx base,
      base + entry.1.tree.size ≤ entry.2 + 1) ∧
    ((postorderBranches parent above index branches).zipIdx base).Pairwise NumbersTell := by
  cases branches with
  | nil => simp [postorderBranches]
  | cons branch rest =>
    obtain ⟨firstRanges, firstPairs⟩ :=
      postorder_from_numbered (⟨parent, index⟩ :: above) branch.2 base
    obtain ⟨restRanges, restPairs⟩ := postorder_branches_numbered parent above (index + 1) rest
      (base + (postorderFrom (⟨parent, index⟩ :: above) branch.2).length)
    simp only [postorderBranches, List.zipIdx_append]
    constructor
    · intro entry member
      rcases List.mem_append.mp member with first | later
      · exact firstRanges entry first
      · exact le_trans (by omega) (restRanges entry later)
    · refine List.pairwise_append.mpr ⟨firstPairs, restPairs, ?_⟩
      intro entry first other later
      have throughFirst : (Place.mk parent above).path ++ [index] <+: entry.1.path := by
        have leading := postorder_from_prefix _ branch.2 entry.1 (List.fst_mem_of_mem_zipIdx first)
        rwa [path_step] at leading
      obtain ⟨found, bound, throughLater⟩ := postorder_branches_prefix parent above (index + 1)
        rest other.1 (List.fst_mem_of_mem_zipIdx later)
      have different : index ≠ found := by omega
      have beforeRest := List.snd_lt_of_mem_zipIdx first
      have inRest := restRanges other later
      have notUpward := diverging _ _ _ _ _ different.symm throughLater throughFirst
      have notDownward := diverging _ _ _ _ _ different throughFirst throughLater
      refine ⟨iff_of_false ?_ (by omega), ?_, ?_⟩
      · exact fun stands => notUpward stands.1
      · exact fun stands => notDownward stands.1
      · exact fun same => notDownward (same ▸ List.prefix_rfl)

end

/-- The places of a subtree in post-order have different paths. -/
theorem postorder_paths_differ (place : Place α) :
    place.postorder.Pairwise fun early late => early.path ≠ late.path := by
  have numbered := (postorder_from_numbered place.above place.tree 0).2
  have places : (place.postorder.zipIdx 0).map Prod.fst = place.postorder := by simp
  rw [← places, List.pairwise_map]
  exact numbered.imp fun tell => tell.path_ne

/-- A place comes last in the post-order of its subtree. -/
theorem postorder_last (place : Place α) :
    place.postorder[place.tree.size - 1]? = some place := by
  obtain ⟨tree, above⟩ := place
  cases tree with
  | node label branches =>
    have count := postorder_branches_length (.node label branches) above 0 branches
    simp [postorder, postorderFrom, Tree.size, ← count]

end Place

namespace Tree

/-- The node with the post-order number `upper` stands above the node with the number `lower`. -/
def Above (tree : Tree α) (upper lower : Nat) : Prop :=
  ∃ up ∈ (Place.top tree).postorder[upper]?, ∃ low ∈ (Place.top tree).postorder[lower]?,
    up.IsAbove low

/-- The node with the post-order number `index` belongs to the subtree of the node with the number
`top`. -/
def InSubtree (tree : Tree α) (top index : Nat) : Prop := index = top ∨ tree.Above top index

/-- A tree has a node, and so a last number. -/
theorem last_inside (tree : Tree α) : tree.size - 1 < tree.size := by
  cases tree with
  | node label branches =>
    rw [size]
    omega

/-- A tree has as many post-order numbers as nodes. -/
theorem postorder_length (tree : Tree α) : (Place.top tree).postorder.length = tree.size :=
  Place.postorder_from_length [] tree

/-- The number of a node leaves room for the nodes of its subtree. -/
theorem subtree_size_le (tree : Tree α) (index : Nat) (place : Place α)
    (found : (Place.top tree).postorder[index]? = some place) : place.tree.size ≤ index + 1 := by
  have member : (place, index) ∈ (Place.top tree).postorder.zipIdx 0 :=
    List.mem_zipIdx_iff_getElem?.mpr found
  simpa using (Place.postorder_from_numbered [] tree 0).1 _ member

/-- The numbers of two nodes tell which one stands above the other. -/
theorem numbers_tell (tree : Tree α) (early late : Nat) (first second : Place α)
    (foundFirst : (Place.top tree).postorder[early]? = some first)
    (foundSecond : (Place.top tree).postorder[late]? = some second) (before : early < late) :
    Place.NumbersTell (first, early) (second, late) := by
  have numbered : ((Place.top tree).postorder.zipIdx 0).Pairwise Place.NumbersTell :=
    (Place.postorder_from_numbered [] tree 0).2
  have entry (index : Nat) (place : Place α)
      (found : (Place.top tree).postorder[index]? = some place)
      (bound : index < ((Place.top tree).postorder.zipIdx 0).length) :
      ((Place.top tree).postorder.zipIdx 0)[index] = (place, index) := by
    obtain ⟨inside, rfl⟩ := List.getElem?_eq_some_iff.mp found
    simp [List.getElem_zipIdx]
  have firstBound : early < ((Place.top tree).postorder.zipIdx 0).length := by
    simpa using (List.getElem?_eq_some_iff.mp foundFirst).1
  have secondBound : late < ((Place.top tree).postorder.zipIdx 0).length := by
    simpa using (List.getElem?_eq_some_iff.mp foundSecond).1
  have told := List.pairwise_iff_getElem.mp numbered early late firstBound secondBound before
  rwa [entry early first foundFirst, entry late second foundSecond] at told

/-- Standing above is a matter of the places that the numbers lead to. -/
theorem above_of_found (tree : Tree α) (upper lower : Nat) (up low : Place α)
    (foundUp : (Place.top tree).postorder[upper]? = some up)
    (foundLow : (Place.top tree).postorder[lower]? = some low) :
    tree.Above upper lower ↔ up.IsAbove low := by
  simp [Above, foundUp, foundLow]

/-- The nodes below a node are those with the numbers before its own that its subtree has room
for. -/
theorem above_iff (tree : Tree α) (upper lower : Nat) (place : Place α)
    (found : (Place.top tree).postorder[upper]? = some place) :
    tree.Above upper lower ↔ upper + 1 ≤ lower + place.tree.size ∧ lower < upper := by
  have room := subtree_size_le tree upper place found
  cases present : (Place.top tree).postorder[lower]? with
  | none =>
    have outside : tree.size ≤ lower := by simpa [postorder_length] using present
    have inside : upper < tree.size := by
      rw [← postorder_length]
      exact (List.getElem?_eq_some_iff.mp found).1
    refine iff_of_false ?_ (by omega)
    simp [Above, present]
  | some low =>
    rw [above_of_found tree upper lower place low found present]
    rcases Nat.lt_trichotomy lower upper with before | rfl | after
    · have told := (numbers_tell tree lower upper low place present found before).above_iff
      simpa [before] using told
    · have same : place = low := Option.some.inj (found.symm.trans present)
      exact iff_of_false (fun stands => stands.2 (congrArg Place.path same)) (by omega)
    · have told := (numbers_tell tree upper lower place low found present after).not_above
      exact iff_of_false told (by omega)

/-- Whoever stands above a node stands above everything below it. -/
theorem above_trans (tree : Tree α) (upper middle lower : Nat)
    (upperAbove : tree.Above upper middle) (middleAbove : tree.Above middle lower) :
    tree.Above upper lower := by
  obtain ⟨up, foundUp, mid, foundMid, upMid⟩ := upperAbove
  obtain ⟨other, foundOther, low, foundLow, otherLow⟩ := middleAbove
  obtain rfl : mid = other := Option.some.inj (foundMid.symm.trans foundOther)
  refine ⟨up, foundUp, low, foundLow, upMid.1.trans otherLow.1, ?_⟩
  intro same
  have back : mid.path <+: up.path := same ▸ otherLow.1
  exact upMid.2 (upMid.1.eq_of_length_le back.length_le)

end Tree

end TreeDelta
