import TreeDelta.Proofs.Alignment.Outcomes
import TreeDelta.Proofs.Alignment.TreeDistance

/-!
# The pairs that are kept

On an exact scale the alignment of two trees comes to an end, and its outcome accounts for every
node of both. The pairs that it keeps are listed in ascending order. As no node is kept twice and
the order of nodes is kept, they ascend strictly and on both sides.
-/

namespace TreeDelta.Alignment

variable {C : Type}

/-- Pairs are put in order by the left node first. -/
theorem pair_not_after_iff (first second : Nat × Nat) :
    pairNotAfter first second = true ↔
      first.1 < second.1 ∨ first.1 = second.1 ∧ first.2 ≤ second.2 := by
  simp [pairNotAfter]

/-- Sorted pairs are in order. -/
theorem sorted_pairs (pairs : List (Nat × Nat)) :
    (pairs.mergeSort pairNotAfter).Pairwise fun early late => pairNotAfter early late = true := by
  refine List.pairwise_mergeSort ?_ ?_ pairs
  · intro first second third
    simp only [pair_not_after_iff]
    omega
  · intro first second
    rw [Bool.or_eq_true, pair_not_after_iff, pair_not_after_iff]
    omega

/-- Pairs without repeated left nodes that keep the order of nodes ascend on both sides when they
are sorted. -/
theorem sorted_pairs_ascend {problem : Problem C} {lefts rights : Finset Nat}
    (pairs : List (Nat × Nat)) (once : (pairs.map Prod.fst).Nodup)
    (fits : Fits problem lefts rights pairs.toFinset) :
    (pairs.mergeSort pairNotAfter).Pairwise fun early late =>
      early.1 < late.1 ∧ early.2 < late.2 := by
  have same : (pairs.mergeSort pairNotAfter).Perm pairs := List.mergeSort_perm pairs pairNotAfter
  have different : (pairs.mergeSort pairNotAfter).Pairwise fun early late =>
      early.1 ≠ late.1 := by
    rw [← List.pairwise_map]
    exact (same.map Prod.fst).nodup_iff.mpr once
  refine ((sorted_pairs pairs).and different).imp_of_mem ?_
  rintro early late earlyMember lateMember ⟨order, apart⟩
  have before : early.1 < late.1 := by
    rw [pair_not_after_iff] at order
    omega
  have member (pair : Nat × Nat) (listed : pair ∈ pairs.mergeSort pairNotAfter) :
      pair ∈ pairs.toFinset := List.mem_toFinset.mpr (same.mem_iff.mp listed)
  exact ⟨before,
    (fits.order early (member early earlyMember) late (member late lateMember)).mp before⟩

section Trees

variable (left right : SyntaxTree) (cost : CostModel C)

/-- The tops of two trees have the last numbers, and these belong to the trees. -/
theorem last_pair_inside :
    Inside (Problem.ofTrees left right cost) (left.size - 1, right.size - 1) := by
  have leftSize : (Problem.ofTrees left right cost).left.size = left.size :=
    Numbering.size_of_tree left
  have rightSize : (Problem.ofTrees left right cost).right.size = right.size :=
    Numbering.size_of_tree right
  rw [Inside, leftSize, rightSize]
  exact ⟨left.last_inside, right.last_inside⟩

/-- The subtrees of the last numbers have all nodes of both trees. -/
theorem extent_of_last_pair :
    extent (Problem.ofTrees left right cost) (left.size - 1, right.size - 1) + 2 =
      left.size + right.size := by
  have leftFirst : (Problem.ofTrees left right cost).left.first (left.size - 1) = 0 :=
    Numbering.first_of_last left
  have rightFirst : (Problem.ofTrees left right cost).right.first (right.size - 1) = 0 :=
    Numbering.first_of_last right
  have leftLast := left.last_inside
  have rightLast := right.last_inside
  simp only [extent, leftFirst, rightFirst]
  omega

/-- The outcome of an alignment is the outcome for the last numbers. -/
theorem outcome_of_trees [CostScale C] :
    (Problem.ofTrees left right cost).outcome? =
      (Problem.ofTrees left right cost).outcomeBetween (Problem.ofTrees left right cost).distances
        (left.size + right.size) (left.size - 1, right.size - 1) := by
  have leftSize : (Problem.ofTrees left right cost).left.size = left.size :=
    Numbering.size_of_tree left
  have rightSize : (Problem.ofTrees left right cost).right.size = right.size :=
    Numbering.size_of_tree right
  rw [Problem.outcome?, leftSize, rightSize]

end Trees

section Exact

variable [AddCommGroup C] [LinearOrder C] [CostScale C] [CostScale.Exact C]
variable (cost : CostModel C) (left right : SyntaxTree)

/-- The alignment of two trees comes to an end, and its outcome accounts for every node. -/
theorem exists_whole_outcome :
    ∃ outcome, (Problem.ofTrees left right cost).outcome? = some outcome ∧
      Accounts (Problem.ofTrees left right cost) (Finset.range left.size)
        (Finset.range right.size) outcome := by
  have nested := nested_of_trees left right cost
  have inside := last_pair_inside left right cost
  have nodes := extent_of_last_pair left right cost
  have leftLast := left.last_inside
  have rightLast := right.last_inside
  obtain ⟨outcome, found⟩ := exists_outcome nested (left.size + right.size) _ inside (by omega)
  have accounts := outcome_accounts nested _ _ outcome inside found
  have leftFirst : (Problem.ofTrees left right cost).left.first (left.size - 1) = 0 :=
    Numbering.first_of_last left
  have rightFirst : (Problem.ofTrees left right cost).right.first (right.size - 1) = 0 :=
    Numbering.first_of_last right
  refine ⟨outcome, (outcome_of_trees left right cost).trans found, ?_⟩
  rw [AccountsForPair, leftFirst, rightFirst, Nat.sub_add_cancel (by omega),
    Nat.sub_add_cancel (by omega), ← Finset.range_eq_Ico, ← Finset.range_eq_Ico] at accounts
  exact accounts

/-- The correspondence lists what the outcome keeps, fits the two trees, and ascends on both
sides. -/
theorem correspondence_fits :
    Fits (Problem.ofTrees left right cost) (Finset.range left.size) (Finset.range right.size)
        (correspondence cost left right).toFinset ∧
      (correspondence cost left right).Pairwise fun early late =>
        early.1 < late.1 ∧ early.2 < late.2 := by
  obtain ⟨outcome, found, accounts⟩ := exists_whole_outcome cost left right
  have listed : correspondence cost left right = outcome.kept.mergeSort pairNotAfter := by
    simp [correspondence, found]
  have same := List.mergeSort_perm outcome.kept pairNotAfter
  have once : (outcome.kept.map Prod.fst ++ outcome.deleted).Nodup := by
    rw [← Multiset.coe_nodup, accounts.left_once]
    exact (Finset.range left.size).nodup
  rw [listed]
  constructor
  · rw [List.toFinset_eq_of_perm _ _ same]
    exact accounts.fits
  · exact sorted_pairs_ascend outcome.kept once.of_append_left accounts.fits

/-- In terms of the trees alone: the pairs that are kept are a mapping between the two trees. -/
theorem correspondence_mapping :
    OrderedMapping left right (left.size - 1) (right.size - 1)
      (correspondence cost left right).toFinset := by
  rw [ordered_mapping_iff left right cost _ _ left.last_inside right.last_inside,
    subtree_of_last, subtree_of_last]
  exact (correspondence_fits cost left right).1

end Exact

end TreeDelta.Alignment
