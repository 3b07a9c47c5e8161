import Mathlib.Algebra.BigOperators.Group.Finset.Basic
import Mathlib.Algebra.Order.Group.Defs
import Mathlib.Order.Bounds.Basic
import Mathlib.Order.Interval.Finset.Nat
import Mathlib.Tactic.Abel
import TreeDelta.Alignment.Distance
import TreeDelta.Proofs.Alignment.NumberedTree

/-!
# Mappings between forests

A forest is given by the numbers of its nodes. A mapping between two forests is a set of pairs of
numbers that keeps the order of nodes and who stands above whom, so it never pairs a node twice. It
costs the renaming of what it pairs, the deletion of what it leaves over on the left, and the
insertion of what it leaves over on the right.

A pair saves what deleting and inserting its nodes would have cost. With savings, the cost of a
mapping is a sum over its pairs added to a sum over each forest, and so it follows how mappings are
put together: forests gain nodes that stay unpaired, mappings of forests that stand one after the
other are united, and a pair is put on top of everything else.
-/

namespace TreeDelta.Alignment

variable {C : Type}

/-- In either tree of the problem, two runs of numbers are apart or one inside the other. -/
structure Problem.Nested (problem : Problem C) : Prop where
  left : problem.left.Nested
  right : problem.right.Nested

/-- The numberings of two trees have that property. -/
theorem nested_of_trees (left right : SyntaxTree) (cost : CostModel C) :
    (Problem.ofTrees left right cost).Nested :=
  ⟨Numbering.nested_of_tree left, Numbering.nested_of_tree right⟩

/-- The pairs map some nodes of one forest to nodes of the other and keep the order of nodes and who
stands above whom. -/
structure Fits (problem : Problem C) (lefts rights : Finset Nat) (pairs : Finset (Nat × Nat)) :
    Prop where
  left_mem : ∀ pair ∈ pairs, pair.1 ∈ lefts
  right_mem : ∀ pair ∈ pairs, pair.2 ∈ rights
  order : ∀ pair ∈ pairs, ∀ other ∈ pairs, pair.1 < other.1 ↔ pair.2 < other.2
  ancestors : ∀ pair ∈ pairs, ∀ other ∈ pairs,
    problem.left.Over pair.1 other.1 ↔ problem.right.Over pair.2 other.2

namespace Fits

variable {problem : Problem C} {lefts rights : Finset Nat} {pairs : Finset (Nat × Nat)}

/-- No node is paired twice. -/
theorem same_iff (fits : Fits problem lefts rights pairs) (pair other : Nat × Nat)
    (member : pair ∈ pairs) (otherMember : other ∈ pairs) :
    pair.1 = other.1 ↔ pair.2 = other.2 := by
  have forward := fits.order pair member other otherMember
  have backward := fits.order other otherMember pair member
  omega

/-- A pair is known by its node on the left. -/
theorem left_injective (fits : Fits problem lefts rights pairs) :
    Set.InjOn Prod.fst (pairs : Set (Nat × Nat)) := by
  intro pair member other otherMember same
  exact Prod.ext same ((fits.same_iff pair other member otherMember).mp same)

/-- A pair is known by its node on the right. -/
theorem right_injective (fits : Fits problem lefts rights pairs) :
    Set.InjOn Prod.snd (pairs : Set (Nat × Nat)) := by
  intro pair member other otherMember same
  exact Prod.ext ((fits.same_iff pair other member otherMember).mpr same) same

/-- Some of the pairs of a mapping fit all forests that still hold them. -/
theorem restrict {others : Finset (Nat × Nat)} {fewerLefts fewerRights : Finset Nat}
    (fits : Fits problem lefts rights pairs) (subset : others ⊆ pairs)
    (leftMem : ∀ pair ∈ others, pair.1 ∈ fewerLefts)
    (rightMem : ∀ pair ∈ others, pair.2 ∈ fewerRights) :
    Fits problem fewerLefts fewerRights others where
  left_mem := leftMem
  right_mem := rightMem
  order pair member other otherMember :=
    fits.order pair (subset member) other (subset otherMember)
  ancestors pair member other otherMember :=
    fits.ancestors pair (subset member) other (subset otherMember)

/-- A mapping fits larger forests as well. -/
theorem mono {moreLefts moreRights : Finset Nat} (fits : Fits problem lefts rights pairs)
    (leftSubset : lefts ⊆ moreLefts) (rightSubset : rights ⊆ moreRights) :
    Fits problem moreLefts moreRights pairs :=
  fits.restrict (Finset.Subset.refl pairs)
    (fun pair member => leftSubset (fits.left_mem pair member))
    (fun pair member => rightSubset (fits.right_mem pair member))

/-- The mapping without pairs fits all forests. -/
theorem empty (lefts rights : Finset Nat) : Fits problem lefts rights ∅ := by
  constructor <;> simp

/-- Only the mapping without pairs fits if one of the forests is empty. -/
theorem eq_empty (fits : Fits problem lefts rights pairs) (none : lefts = ∅ ∨ rights = ∅) :
    pairs = ∅ := by
  apply Finset.eq_empty_of_forall_notMem
  intro pair member
  rcases none with rfl | rfl
  · exact Finset.notMem_empty _ (fits.left_mem pair member)
  · exact Finset.notMem_empty _ (fits.right_mem pair member)

/-- A mapping that leaves a node of the left tree unpaired fits the forest without it. -/
theorem drop_left {i : Nat}
    (fits : Fits problem (insert i lefts) rights pairs)
    (unpaired : ∀ pair ∈ pairs, pair.1 ≠ i) : Fits problem lefts rights pairs :=
  fits.restrict subset_rfl
    (fun pair member =>
      (Finset.mem_insert.mp (fits.left_mem pair member)).resolve_left (unpaired pair member))
    fits.right_mem

/-- A mapping that leaves a node of the right tree unpaired fits the forest without it. -/
theorem drop_right {j : Nat}
    (fits : Fits problem lefts (insert j rights) pairs)
    (unpaired : ∀ pair ∈ pairs, pair.2 ≠ j) : Fits problem lefts rights pairs :=
  fits.restrict subset_rfl fits.left_mem
    (fun pair member =>
      (Finset.mem_insert.mp (fits.right_mem pair member)).resolve_left (unpaired pair member))

/-- The last nodes of two forests are paired with each other, or one of them is not paired. -/
theorem last_nodes {i j : Nat}
    (fits : Fits problem (insert i lefts) (insert j rights) pairs)
    (leftLast : ∀ index ∈ lefts, index < i) (rightLast : ∀ index ∈ rights, index < j) :
    (∀ pair ∈ pairs, pair.1 ≠ i) ∨ (∀ pair ∈ pairs, pair.2 ≠ j) ∨ (i, j) ∈ pairs := by
  by_contra! all
  obtain ⟨⟨pair, member, leftSame⟩, ⟨other, otherMember, rightSame⟩, apart⟩ := all
  have pairBound : pair.2 = j ∨ pair.2 < j :=
    (Finset.mem_insert.mp (fits.right_mem pair member)).imp id (rightLast pair.2)
  have otherBound : other.1 = i ∨ other.1 < i :=
    (Finset.mem_insert.mp (fits.left_mem other otherMember)).imp id (leftLast other.1)
  have kept := fits.order pair member other otherMember
  have same : pair = (i, j) := Prod.ext leftSame (by omega)
  exact apart (same ▸ member)

/-- Mappings of forests that stand one after the other are united to a mapping. No node of either
forest stands above a node of the other.

Two pairs of one mapping are in order because that mapping fits. For one of each, both precedences
say that the first stands in front of the second, on either side, and that neither is above the
other. -/
theorem union {moreLefts moreRights : Finset Nat} {others : Finset (Nat × Nat)}
    (fits : Fits problem lefts rights pairs)
    (othersFit : Fits problem moreLefts moreRights others)
    (leftPrecedes : problem.left.Precedes lefts moreLefts)
    (rightPrecedes : problem.right.Precedes rights moreRights) :
    Fits problem (lefts ∪ moreLefts) (rights ∪ moreRights) (pairs ∪ others) := by
  have apart (pair : Nat × Nat) (member : pair ∈ pairs) (other : Nat × Nat)
      (otherMember : other ∈ others) :
      (pair.1 < problem.left.first other.1 ∧ pair.1 < other.1) ∧
        pair.2 < problem.right.first other.2 ∧ pair.2 < other.2 :=
    ⟨leftPrecedes _ (fits.left_mem pair member) _ (othersFit.left_mem other otherMember),
      rightPrecedes _ (fits.right_mem pair member) _ (othersFit.right_mem other otherMember)⟩
  refine ⟨?_, ?_, ?_, ?_⟩
  · intro pair member
    rcases Finset.mem_union.mp member with first | second
    · exact Finset.mem_union_left _ (fits.left_mem pair first)
    · exact Finset.mem_union_right _ (othersFit.left_mem pair second)
  · intro pair member
    rcases Finset.mem_union.mp member with first | second
    · exact Finset.mem_union_left _ (fits.right_mem pair first)
    · exact Finset.mem_union_right _ (othersFit.right_mem pair second)
  · intro pair member other otherMember
    rcases Finset.mem_union.mp member with first | second <;>
      rcases Finset.mem_union.mp otherMember with otherFirst | otherSecond
    · exact fits.order pair first other otherFirst
    · have bounds := apart pair first other otherSecond
      omega
    · have bounds := apart other otherFirst pair second
      omega
    · exact othersFit.order pair second other otherSecond
  · intro pair member other otherMember
    rcases Finset.mem_union.mp member with first | second <;>
      rcases Finset.mem_union.mp otherMember with otherFirst | otherSecond
    · exact fits.ancestors pair first other otherFirst
    · have bounds := apart pair first other otherSecond
      simp only [Numbering.Over]
      omega
    · have bounds := apart other otherFirst pair second
      simp only [Numbering.Over]
      omega
    · exact othersFit.ancestors pair second other otherSecond

/-- A pair of nodes that stand above everything else can be put on top of a mapping.

Of two pairs one may be the new one. Then its nodes are above those of the other on both sides, and
behind them in the numbering. -/
theorem insert_top (fits : Fits problem lefts rights pairs) (i j : Nat)
    (leftOver : ∀ index ∈ lefts, problem.left.Over i index)
    (rightOver : ∀ index ∈ rights, problem.right.Over j index) :
    Fits problem (insert i lefts) (insert j rights) (insert (i, j) pairs) := by
  have below (pair : Nat × Nat) (member : pair ∈ pairs) :
      problem.left.Over i pair.1 ∧ problem.right.Over j pair.2 :=
    ⟨leftOver _ (fits.left_mem pair member), rightOver _ (fits.right_mem pair member)⟩
  simp only [Numbering.Over] at below
  refine ⟨?_, ?_, ?_, ?_⟩
  · intro pair member
    rcases Finset.mem_insert.mp member with rfl | old
    · exact Finset.mem_insert_self i lefts
    · exact Finset.mem_insert_of_mem (fits.left_mem pair old)
  · intro pair member
    rcases Finset.mem_insert.mp member with rfl | old
    · exact Finset.mem_insert_self j rights
    · exact Finset.mem_insert_of_mem (fits.right_mem pair old)
  · intro pair member other otherMember
    rcases Finset.mem_insert.mp member with rfl | old <;>
      rcases Finset.mem_insert.mp otherMember with rfl | otherOld
    · simp
    · have bounds := below other otherOld
      dsimp only
      omega
    · have bounds := below pair old
      dsimp only
      omega
    · exact fits.order pair old other otherOld
  · intro pair member other otherMember
    simp only [Numbering.Over]
    rcases Finset.mem_insert.mp member with rfl | old <;>
      rcases Finset.mem_insert.mp otherMember with rfl | otherOld
    · simp
    · have bounds := below other otherOld
      dsimp only
      omega
    · have bounds := below pair old
      dsimp only
      omega
    · exact fits.ancestors pair old other otherOld

/-- Without the pair of their tops, a mapping fits the forests without their tops. -/
theorem drop_top {i j : Nat} (fits : Fits problem (insert i lefts) (insert j rights) pairs)
    (paired : (i, j) ∈ pairs) : Fits problem lefts rights (pairs.erase (i, j)) := by
  apply fits.restrict (Finset.erase_subset _ pairs)
  · intro pair member
    obtain ⟨different, old⟩ := Finset.mem_erase.mp member
    refine (Finset.mem_insert.mp (fits.left_mem pair old)).resolve_left fun leftSame => ?_
    have rightSame := (fits.same_iff pair (i, j) old paired).mp leftSame
    exact different (Prod.ext leftSame rightSame)
  · intro pair member
    obtain ⟨different, old⟩ := Finset.mem_erase.mp member
    refine (Finset.mem_insert.mp (fits.right_mem pair old)).resolve_left fun rightSame => ?_
    have leftSame := (fits.same_iff pair (i, j) old paired).mpr rightSame
    exact different (Prod.ext leftSame rightSame)

/-- A mapping that pairs the last nodes of two forests pairs what is below the one with what is
below the other, and what is in front of the one with what is in front of the other.

A node of a forest belongs to the subtree of the last one exactly if its number is not smaller than
the first number there. As ancestors correspond, both nodes of a pair are on the same side of the
cut, so the pairs can be filtered by their left numbers alone. -/
theorem cut {leftStart rightStart i j : Nat}
    (fits : Fits problem (Finset.Ico leftStart (i + 1)) (Finset.Ico rightStart (j + 1)) pairs)
    (leftBound : problem.left.first i ≤ i) (rightBound : problem.right.first j ≤ j)
    (paired : (i, j) ∈ pairs) :
    ∃ front tree, pairs = front ∪ tree ∧
      Fits problem (Finset.Ico leftStart (problem.left.first i))
        (Finset.Ico rightStart (problem.right.first j)) front ∧
      Fits problem (Finset.Ico (problem.left.first i) (i + 1))
        (Finset.Ico (problem.right.first j) (j + 1)) tree := by
  have sameSide (pair : Nat × Nat) (member : pair ∈ pairs) :
      problem.left.first i ≤ pair.1 ↔ problem.right.first j ≤ pair.2 := by
    have below := fits.ancestors (i, j) paired pair member
    have same := fits.same_iff (i, j) pair paired member
    have leftInside := Finset.mem_Ico.mp (fits.left_mem pair member)
    have rightInside := Finset.mem_Ico.mp (fits.right_mem pair member)
    simp only [Numbering.Over] at below same
    omega
  refine ⟨pairs.filter fun pair => pair.1 < problem.left.first i,
    pairs.filter fun pair => ¬pair.1 < problem.left.first i,
    (Finset.filter_union_filter_not_eq _ pairs).symm, ?_, ?_⟩
  · apply fits.restrict (Finset.filter_subset _ pairs)
    · intro pair filtered
      obtain ⟨member, before⟩ := Finset.mem_filter.mp filtered
      have inside := Finset.mem_Ico.mp (fits.left_mem pair member)
      exact Finset.mem_Ico.mpr ⟨inside.1, before⟩
    · intro pair filtered
      obtain ⟨member, before⟩ := Finset.mem_filter.mp filtered
      have inside := Finset.mem_Ico.mp (fits.right_mem pair member)
      have side := sameSide pair member
      exact Finset.mem_Ico.mpr ⟨inside.1, by omega⟩
  · apply fits.restrict (Finset.filter_subset _ pairs)
    · intro pair filtered
      obtain ⟨member, notBefore⟩ := Finset.mem_filter.mp filtered
      have inside := Finset.mem_Ico.mp (fits.left_mem pair member)
      exact Finset.mem_Ico.mpr ⟨Nat.le_of_not_lt notBefore, inside.2⟩
    · intro pair filtered
      obtain ⟨member, notBefore⟩ := Finset.mem_filter.mp filtered
      have inside := Finset.mem_Ico.mp (fits.right_mem pair member)
      have side := sameSide pair member
      exact Finset.mem_Ico.mpr ⟨by omega, inside.2⟩

end Fits

section Cost

variable [AddCommGroup C]

/-- The cost of a mapping between two forests: what it renames, and what it leaves over. -/
def total (problem : Problem C) (lefts rights : Finset Nat) (pairs : Finset (Nat × Nat)) : C :=
  ∑ pair ∈ pairs, problem.rename pair.1 pair.2 +
    ∑ i ∈ lefts \ pairs.image Prod.fst, problem.delete i +
    ∑ j ∈ rights \ pairs.image Prod.snd, problem.insert j

/-- What renaming a pair of nodes costs beyond deleting the one and inserting the other. -/
def surplus (problem : Problem C) (pair : Nat × Nat) : C :=
  problem.rename pair.1 pair.2 - problem.delete pair.1 - problem.insert pair.2

variable {problem : Problem C} {lefts rights : Finset Nat} {pairs : Finset (Nat × Nat)}

/-- The cost of a mapping, by what everything would cost without it. -/
theorem total_eq (fits : Fits problem lefts rights pairs) :
    total problem lefts rights pairs =
      ∑ i ∈ lefts, problem.delete i + ∑ j ∈ rights, problem.insert j +
        ∑ pair ∈ pairs, surplus problem pair := by
  have leftSubset : pairs.image Prod.fst ⊆ lefts := by
    simpa [Finset.image_subset_iff] using fits.left_mem
  have rightSubset : pairs.image Prod.snd ⊆ rights := by
    simpa [Finset.image_subset_iff] using fits.right_mem
  have paired : ∑ i ∈ pairs.image Prod.fst, problem.delete i =
      ∑ pair ∈ pairs, problem.delete pair.1 := Finset.sum_image fits.left_injective
  have otherPaired : ∑ j ∈ pairs.image Prod.snd, problem.insert j =
      ∑ pair ∈ pairs, problem.insert pair.2 := Finset.sum_image fits.right_injective
  have leftSum := Finset.sum_sdiff (f := problem.delete) leftSubset
  have rightSum := Finset.sum_sdiff (f := problem.insert) rightSubset
  rw [paired] at leftSum
  rw [otherPaired] at rightSum
  simp only [total, surplus, Finset.sum_sub_distrib, ← leftSum, ← rightSum]
  abel

/-- A node of the left tree that stays unpaired is deleted. -/
theorem total_insert_left (fits : Fits problem lefts rights pairs) (i : Nat)
    (new : i ∉ lefts) :
    total problem (insert i lefts) rights pairs =
      total problem lefts rights pairs + problem.delete i := by
  rw [total_eq fits, total_eq (fits.mono (Finset.subset_insert i lefts) subset_rfl),
    Finset.sum_insert new]
  abel

/-- A node of the right tree that stays unpaired is inserted. -/
theorem total_insert_right (fits : Fits problem lefts rights pairs) (j : Nat)
    (new : j ∉ rights) :
    total problem lefts (insert j rights) pairs =
      total problem lefts rights pairs + problem.insert j := by
  rw [total_eq fits, total_eq (fits.mono subset_rfl (Finset.subset_insert j rights)),
    Finset.sum_insert new]
  abel

/-- A pair that is put on top is renamed. -/
theorem total_insert_top (fits : Fits problem lefts rights pairs) (i j : Nat)
    (leftOver : ∀ index ∈ lefts, problem.left.Over i index)
    (rightOver : ∀ index ∈ rights, problem.right.Over j index) :
    total problem (insert i lefts) (insert j rights) (insert (i, j) pairs) =
      total problem lefts rights pairs + problem.rename i j := by
  have newLeft : i ∉ lefts := fun member => Nat.lt_irrefl i (leftOver i member).2
  have newRight : j ∉ rights := fun member => Nat.lt_irrefl j (rightOver j member).2
  have newPair : (i, j) ∉ pairs := fun member => newLeft (fits.left_mem (i, j) member)
  rw [total_eq fits, total_eq (fits.insert_top i j leftOver rightOver),
    Finset.sum_insert newLeft, Finset.sum_insert newRight, Finset.sum_insert newPair]
  simp only [surplus]
  abel

/-- The costs of mappings of forests that stand one after the other add up. -/
theorem total_union {moreLefts moreRights : Finset Nat} {others : Finset (Nat × Nat)}
    (fits : Fits problem lefts rights pairs) (othersFit : Fits problem moreLefts moreRights others)
    (leftPrecedes : problem.left.Precedes lefts moreLefts)
    (rightPrecedes : problem.right.Precedes rights moreRights) :
    total problem (lefts ∪ moreLefts) (rights ∪ moreRights) (pairs ∪ others) =
      total problem lefts rights pairs + total problem moreLefts moreRights others := by
  have leftDisjoint : Disjoint lefts moreLefts :=
    Finset.disjoint_left.mpr fun i member other =>
      Nat.lt_irrefl i (leftPrecedes i member i other).2
  have rightDisjoint : Disjoint rights moreRights :=
    Finset.disjoint_left.mpr fun j member other =>
      Nat.lt_irrefl j (rightPrecedes j member j other).2
  have pairsDisjoint : Disjoint pairs others :=
    Finset.disjoint_left.mpr fun pair member other =>
      Finset.disjoint_left.mp leftDisjoint (fits.left_mem pair member)
        (othersFit.left_mem pair other)
  rw [total_eq fits, total_eq othersFit,
    total_eq (fits.union othersFit leftPrecedes rightPrecedes),
    Finset.sum_union leftDisjoint, Finset.sum_union rightDisjoint,
    Finset.sum_union pairsDisjoint]
  abel

end Cost

end TreeDelta.Alignment
