import Mathlib.Algebra.Order.Interval.Finset.SuccPred
import Mathlib.Algebra.Order.Monoid.Defs
import Mathlib.Data.Nat.SuccPred
import TreeDelta.Proofs.Alignment.ForestMapping

/-!
# Least costs of mappings

The least cost of a mapping between two forests is found from their last nodes. Either the last node
on the left is deleted, or the last node on the right is inserted, or both are paired with each
other: a mapping keeps the order, so if both are paired with anything it is with each other. Each
possibility leaves smaller forests.

If both forests are whole trees, pairing their tops leaves everything else below the tops. If not,
the pairing of the last nodes cuts every mapping in two: what is paired below the one is below the
other, and what is paired in front of the one is in front of the other.
-/

namespace TreeDelta.Alignment

variable {C : Type} [AddCommGroup C] [LinearOrder C]

/-- A cost that some mapping between two forests has, and that none falls below. -/
def Least (problem : Problem C) (lefts rights : Finset Nat) (cost : C) : Prop :=
  IsLeast {cost | ∃ pairs, Fits problem lefts rights pairs ∧
    total problem lefts rights pairs = cost} cost

variable {problem : Problem C} {lefts rights : Finset Nat}

omit [AddCommGroup C] in
/-- The least of three costs is one of them. -/
theorem one_of_three {cost first second third : C}
    (least : cost = min (min first second) third) :
    cost = first ∨ cost = second ∨ cost = third := by
  rcases min_choice (min first second) third with notThird | isThird
  · rcases min_choice first second with isFirst | isSecond
    · exact Or.inl (by rw [least, notThird, isFirst])
    · exact Or.inr (Or.inl (by rw [least, notThird, isSecond]))
  · exact Or.inr (Or.inr (by rw [least, isThird]))

/-- Forests without nodes are mapped for nothing. -/
theorem least_empty : Least problem ∅ ∅ 0 := by
  constructor
  · exact ⟨∅, Fits.empty ∅ ∅, by simp [total]⟩
  · rintro cost ⟨pairs, fits, rfl⟩
    rw [fits.eq_empty (Or.inl rfl)]
    simp [total]

variable [IsOrderedAddMonoid C]

/-- If nothing is left to pair them with, the nodes of the left tree are deleted. -/
theorem least_insert_left {cost : C} {i : Nat} (new : i ∉ lefts)
    (least : Least problem lefts ∅ cost) :
    Least problem (insert i lefts) ∅ (cost + problem.delete i) := by
  obtain ⟨⟨pairs, fits, rfl⟩, bound⟩ := least
  constructor
  · exact ⟨pairs, fits.mono (Finset.subset_insert i lefts) subset_rfl,
      total_insert_left fits i new⟩
  · rintro other ⟨others, othersFit, rfl⟩
    have none := othersFit.eq_empty (Or.inr rfl)
    subst none
    rw [total_insert_left (Fits.empty lefts ∅) i new]
    exact add_le_add_left (bound ⟨∅, Fits.empty lefts ∅, rfl⟩) _

/-- If nothing is left to pair them with, the nodes of the right tree are inserted. -/
theorem least_insert_right {cost : C} {j : Nat} (new : j ∉ rights)
    (least : Least problem ∅ rights cost) :
    Least problem ∅ (insert j rights) (cost + problem.insert j) := by
  obtain ⟨⟨pairs, fits, rfl⟩, bound⟩ := least
  constructor
  · exact ⟨pairs, fits.mono subset_rfl (Finset.subset_insert j rights),
      total_insert_right fits j new⟩
  · rintro other ⟨others, othersFit, rfl⟩
    have none := othersFit.eq_empty (Or.inl rfl)
    subst none
    rw [total_insert_right (Fits.empty ∅ rights) j new]
    exact add_le_add_left (bound ⟨∅, Fits.empty ∅ rights, rfl⟩) _

/-- The least cost of two forests from the three possibilities for their last nodes. The cost of the
third one is that of some mapping, and no mapping that pairs the last nodes falls below it. -/
theorem least_step {i j : Nat} {deleted inserted kept : C}
    (leftLast : ∀ index ∈ lefts, index < i) (rightLast : ∀ index ∈ rights, index < j)
    (whenDeleted : Least problem lefts (insert j rights) deleted)
    (whenInserted : Least problem (insert i lefts) rights inserted)
    (attained : ∃ pairs, Fits problem (insert i lefts) (insert j rights) pairs ∧
      total problem (insert i lefts) (insert j rights) pairs = kept)
    (bound : ∀ pairs, Fits problem (insert i lefts) (insert j rights) pairs → (i, j) ∈ pairs →
      kept ≤ total problem (insert i lefts) (insert j rights) pairs) :
    Least problem (insert i lefts) (insert j rights)
      (min (min (deleted + problem.delete i) (inserted + problem.insert j)) kept) := by
  have newLeft : i ∉ lefts := fun member => Nat.lt_irrefl i (leftLast i member)
  have newRight : j ∉ rights := fun member => Nat.lt_irrefl j (rightLast j member)
  obtain ⟨⟨deletedPairs, deletedFit, deletedCost⟩, deletedBound⟩ := whenDeleted
  obtain ⟨⟨insertedPairs, insertedFit, insertedCost⟩, insertedBound⟩ := whenInserted
  constructor
  · have choice := one_of_three (Eq.refl
      (min (min (deleted + problem.delete i) (inserted + problem.insert j)) kept))
    rcases choice with least | least | least
    · rw [least, ← deletedCost]
      exact ⟨deletedPairs, deletedFit.mono (Finset.subset_insert i lefts) subset_rfl,
        total_insert_left deletedFit i newLeft⟩
    · rw [least, ← insertedCost]
      exact ⟨insertedPairs, insertedFit.mono subset_rfl (Finset.subset_insert j rights),
        total_insert_right insertedFit j newRight⟩
    · rw [least]
      exact attained
  · rintro cost ⟨pairs, fits, rfl⟩
    rcases fits.last_nodes leftLast rightLast with unpaired | unpaired | paired
    · have smaller := fits.drop_left unpaired
      rw [total_insert_left smaller i newLeft]
      refine (min_le_left _ _).trans ((min_le_left _ _).trans ?_)
      exact add_le_add_left (deletedBound ⟨pairs, smaller, rfl⟩) _
    · have smaller := fits.drop_right unpaired
      rw [total_insert_right smaller j newRight]
      refine (min_le_left _ _).trans ((min_le_right _ _).trans ?_)
      exact add_le_add_left (insertedBound ⟨pairs, smaller, rfl⟩) _
    · exact (min_le_right _ _).trans (bound pairs fits paired)

/-- The least cost of two whole trees. Everything but their tops stands below them. -/
theorem least_whole {leftStart rightStart i j : Nat} {deleted inserted both : C}
    (leftWhole : problem.left.first i = leftStart) (rightWhole : problem.right.first j = rightStart)
    (leftBound : leftStart ≤ i) (rightBound : rightStart ≤ j)
    (whenDeleted : Least problem (Finset.Ico leftStart i)
      (Finset.Ico rightStart (j + 1)) deleted)
    (whenInserted : Least problem (Finset.Ico leftStart (i + 1))
      (Finset.Ico rightStart j) inserted)
    (below : Least problem (Finset.Ico leftStart i) (Finset.Ico rightStart j) both) :
    Least problem (Finset.Ico leftStart (i + 1)) (Finset.Ico rightStart (j + 1))
      (min (min (deleted + problem.delete i) (inserted + problem.insert j))
        (both + problem.rename i j)) := by
  subst leftWhole rightWhole
  have leftOver : ∀ index ∈ Finset.Ico (problem.left.first i) i, problem.left.Over i index := by
    intro index member
    exact Finset.mem_Ico.mp member
  have rightOver : ∀ index ∈ Finset.Ico (problem.right.first j) j, problem.right.Over j index := by
    intro index member
    exact Finset.mem_Ico.mp member
  rw [← Finset.insert_Ico_right_eq_Ico_add_one leftBound] at whenInserted ⊢
  rw [← Finset.insert_Ico_right_eq_Ico_add_one rightBound] at whenDeleted ⊢
  obtain ⟨⟨smaller, smallerFit, smallerCost⟩, smallerBound⟩ := below
  refine least_step (fun index member => (leftOver index member).2)
    (fun index member => (rightOver index member).2) whenDeleted whenInserted ?_ ?_
  · refine ⟨insert (i, j) smaller, smallerFit.insert_top i j leftOver rightOver, ?_⟩
    rw [total_insert_top smallerFit i j leftOver rightOver, smallerCost]
  · intro pairs fits paired
    have others := fits.drop_top paired
    rw [← Finset.insert_erase paired, total_insert_top others i j leftOver rightOver]
    exact add_le_add_left (smallerBound ⟨pairs.erase (i, j), others, rfl⟩) _

omit [IsOrderedAddMonoid C] in
/-- The last trees of two forests and what stands in front of them, each mapped at least cost, are a
mapping of the forests. -/
theorem split_attained {leftStart rightStart i j : Nat} {before subtree : C}
    (nested : problem.Nested) (leftInside : i < problem.left.size)
    (rightInside : j < problem.right.size) (leftAfter : leftStart ≤ problem.left.first i)
    (rightAfter : rightStart ≤ problem.right.first j)
    (front : Least problem (Finset.Ico leftStart (problem.left.first i))
      (Finset.Ico rightStart (problem.right.first j)) before)
    (tree : Least problem (Finset.Ico (problem.left.first i) (i + 1))
      (Finset.Ico (problem.right.first j) (j + 1)) subtree) :
    ∃ pairs, Fits problem (Finset.Ico leftStart (i + 1)) (Finset.Ico rightStart (j + 1)) pairs ∧
      total problem (Finset.Ico leftStart (i + 1)) (Finset.Ico rightStart (j + 1)) pairs =
        before + subtree := by
  have leftBound := nested.left.first_le i leftInside
  have rightBound := nested.right.first_le j rightInside
  have leftPrecedes := nested.left.precedes leftStart i leftInside
  have rightPrecedes := nested.right.precedes rightStart j rightInside
  obtain ⟨frontPairs, frontFit, frontCost⟩ := front.1
  obtain ⟨treePairs, treeFit, treeCost⟩ := tree.1
  have fits := frontFit.union treeFit leftPrecedes rightPrecedes
  have cost := total_union frontFit treeFit leftPrecedes rightPrecedes
  rw [Finset.Ico_union_Ico_eq_Ico leftAfter (by omega),
    Finset.Ico_union_Ico_eq_Ico rightAfter (by omega)] at fits cost
  exact ⟨frontPairs ∪ treePairs, fits, by rw [cost, frontCost, treeCost]⟩

/-- No mapping that pairs the last nodes of two forests costs less than the last trees and what
stands in front of them, each mapped at least cost. -/
theorem split_bound {leftStart rightStart i j : Nat} {before subtree : C}
    (nested : problem.Nested) (leftInside : i < problem.left.size)
    (rightInside : j < problem.right.size) (leftAfter : leftStart ≤ problem.left.first i)
    (rightAfter : rightStart ≤ problem.right.first j)
    (front : Least problem (Finset.Ico leftStart (problem.left.first i))
      (Finset.Ico rightStart (problem.right.first j)) before)
    (tree : Least problem (Finset.Ico (problem.left.first i) (i + 1))
      (Finset.Ico (problem.right.first j) (j + 1)) subtree)
    (pairs : Finset (Nat × Nat))
    (fits : Fits problem (Finset.Ico leftStart (i + 1)) (Finset.Ico rightStart (j + 1)) pairs)
    (paired : (i, j) ∈ pairs) :
    before + subtree ≤
      total problem (Finset.Ico leftStart (i + 1)) (Finset.Ico rightStart (j + 1)) pairs := by
  have leftBound := nested.left.first_le i leftInside
  have rightBound := nested.right.first_le j rightInside
  have leftPrecedes := nested.left.precedes leftStart i leftInside
  have rightPrecedes := nested.right.precedes rightStart j rightInside
  obtain ⟨frontPairs, treePairs, rfl, frontFit, treeFit⟩ := fits.cut leftBound rightBound paired
  have cost := total_union frontFit treeFit leftPrecedes rightPrecedes
  rw [Finset.Ico_union_Ico_eq_Ico leftAfter (by omega),
    Finset.Ico_union_Ico_eq_Ico rightAfter (by omega)] at cost
  rw [cost]
  exact add_le_add (front.2 ⟨frontPairs, frontFit, rfl⟩) (tree.2 ⟨treePairs, treeFit, rfl⟩)

/-- The least cost of two forests that are not both whole trees, from the least cost of the last
trees of both and of what stands in front of them. -/
theorem least_split {leftStart rightStart i j : Nat} {deleted inserted before subtree : C}
    (nested : problem.Nested) (leftInside : i < problem.left.size)
    (rightInside : j < problem.right.size) (leftAfter : leftStart ≤ problem.left.first i)
    (rightAfter : rightStart ≤ problem.right.first j)
    (whenDeleted : Least problem (Finset.Ico leftStart i)
      (Finset.Ico rightStart (j + 1)) deleted)
    (whenInserted : Least problem (Finset.Ico leftStart (i + 1))
      (Finset.Ico rightStart j) inserted)
    (front : Least problem (Finset.Ico leftStart (problem.left.first i))
      (Finset.Ico rightStart (problem.right.first j)) before)
    (tree : Least problem (Finset.Ico (problem.left.first i) (i + 1))
      (Finset.Ico (problem.right.first j) (j + 1)) subtree) :
    Least problem (Finset.Ico leftStart (i + 1)) (Finset.Ico rightStart (j + 1))
      (min (min (deleted + problem.delete i) (inserted + problem.insert j))
        (before + subtree)) := by
  have leftBound := nested.left.first_le i leftInside
  have rightBound := nested.right.first_le j rightInside
  have attained := split_attained nested leftInside rightInside leftAfter rightAfter front tree
  have bound := split_bound nested leftInside rightInside leftAfter rightAfter front tree
  rw [← Finset.insert_Ico_right_eq_Ico_add_one (by omega : leftStart ≤ i)]
    at whenInserted attained bound ⊢
  rw [← Finset.insert_Ico_right_eq_Ico_add_one (by omega : rightStart ≤ j)]
    at whenDeleted attained bound ⊢
  apply least_step ?_ ?_ whenDeleted whenInserted attained bound
  · intro index member
    exact (Finset.mem_Ico.mp member).2
  · intro index member
    exact (Finset.mem_Ico.mp member).2

end TreeDelta.Alignment
