import Mathlib.Algebra.Order.BigOperators.Group.Finset
import TreeDelta.Proofs.Alignment.ForestMapping
import TreeDelta.Proofs.Alignment.NumberedShape

/-!
# Mappings that cost nothing

Where deleting and inserting always cost something and only nodes that go together are renamed for
nothing, a mapping is free only if it leaves no node over and pairs nodes that go together. A
mapping that keeps the order and leaves no node over pairs every number with itself. As it keeps who
stands above whom, the first numbers of both trees are the same, and so is their shape. The other
way round, pairing every node of a tree with the node of its number in a tree of the same shape is
free.
-/

namespace TreeDelta

variable {C : Type}

/-- The costs tell nodes apart that do not go together: renaming is free between those that do and
costs something between others, and deleting and inserting always cost something. -/
structure CostModel.Discerning [AddCommGroup C] [LinearOrder C] (goes : Node → Node → Bool)
    (cost : CostModel C) : Prop where
  rename_nonneg : ∀ first second, 0 ≤ cost.rename first second
  rename_zero_iff : ∀ first second, cost.rename first second = 0 ↔ goes first second = true
  delete_pos : ∀ node, 0 < cost.delete node
  insert_pos : ∀ node, 0 < cost.insert node

namespace Alignment

variable {cost : CostModel C} {left right : SyntaxTree} {pairs : Finset (Nat × Nat)}

/-! ### Mappings that leave nothing over -/

/-- A mapping that leaves no node over pairs every number with itself. The induction is on the
number: a smaller one on either side would be paired with itself already. -/
theorem Fits.diagonal {problem : Problem C} {size otherSize : Nat}
    (fits : Fits problem (Finset.range size) (Finset.range otherSize) pairs)
    (leftPaired : ∀ i < size, ∃ j, (i, j) ∈ pairs)
    (rightPaired : ∀ j < otherSize, ∃ i, (i, j) ∈ pairs) (index : Nat) (inside : index < size) :
    (index, index) ∈ pairs := by
  induction index using Nat.strong_induction_on with
  | h index inductionHypothesis =>
    obtain ⟨partner, paired⟩ := leftPaired index inside
    rcases Nat.lt_trichotomy partner index with before | rfl | behind
    · have same := inductionHypothesis partner before (by omega)
      have equal : index = partner := (fits.same_iff _ _ paired same).mpr rfl
      omega
    · exact paired
    · have partnerInside := Finset.mem_range.mp (fits.right_mem _ paired)
      obtain ⟨other, otherPaired⟩ := rightPaired index (Nat.lt_trans behind partnerInside)
      have otherBefore : other < index := (fits.order _ otherPaired _ paired).mpr behind
      have same := inductionHypothesis other otherBefore (by omega)
      have equal : index = other := (fits.same_iff _ _ otherPaired same).mp rfl
      omega

/-- A mapping that pairs every number of two trees with itself leaves their first numbers no room to
differ. -/
theorem Fits.same_firsts
    (fits : Fits (Problem.ofTrees left right cost) (Finset.range left.size)
      (Finset.range right.size) pairs)
    (diagonal : ∀ index < left.size, (index, index) ∈ pairs) {index : Nat}
    (inside : index < left.size) :
    (Numbering.ofTree left).first index = (Numbering.ofTree right).first index := by
  have leftFirst := Numbering.first_le_of_tree left index inside
  have rightFirst := Numbering.first_le_of_tree right index
    (Finset.mem_range.mp (fits.right_mem _ (diagonal index inside)))
  have above (lower : Nat) (below : lower < index) :
      (Numbering.ofTree left).Over index lower ↔ (Numbering.ofTree right).Over index lower :=
    fits.ancestors _ (diagonal index inside) _ (diagonal lower (by omega))
  simp only [Numbering.Over] at above
  rcases Nat.lt_trichotomy ((Numbering.ofTree left).first index)
    ((Numbering.ofTree right).first index) with before | same | behind
  · have lower := above _ (Nat.lt_of_lt_of_le before rightFirst)
    omega
  · exact same
  · have lower := above _ (Nat.lt_of_lt_of_le behind leftFirst)
    omega

variable [AddCommGroup C] [LinearOrder C] [IsOrderedAddMonoid C] {goes : Node → Node → Bool}

/-- No mapping costs less than nothing. -/
theorem total_nonneg (discerning : cost.Discerning goes) (first last : Numbering)
    (lefts rights : Finset Nat) (pairs : Finset (Nat × Nat)) :
    0 ≤ total ⟨first, last, cost⟩ lefts rights pairs := by
  refine add_nonneg (add_nonneg ?_ ?_) ?_
  · exact Finset.sum_nonneg fun pair _ => discerning.rename_nonneg _ _
  · exact Finset.sum_nonneg fun i _ => (discerning.delete_pos _).le
  · exact Finset.sum_nonneg fun j _ => (discerning.insert_pos _).le

/-- A mapping that costs nothing pairs nodes that go together and leaves no node over. -/
theorem free_total (discerning : cost.Discerning goes) {first last : Numbering}
    {lefts rights : Finset Nat} (free : total ⟨first, last, cost⟩ lefts rights pairs = 0) :
    (∀ pair ∈ pairs, goes (first.node pair.1) (last.node pair.2) = true) ∧
      (∀ i ∈ lefts, ∃ j, (i, j) ∈ pairs) ∧ ∀ j ∈ rights, ∃ i, (i, j) ∈ pairs := by
  have renamed : ∀ pair ∈ pairs, 0 ≤ cost.rename (first.node pair.1) (last.node pair.2) :=
    fun pair _ => discerning.rename_nonneg _ _
  have deleted : ∀ i ∈ lefts \ pairs.image Prod.fst, 0 ≤ cost.delete (first.node i) :=
    fun i _ => (discerning.delete_pos _).le
  have inserted : ∀ j ∈ rights \ pairs.image Prod.snd, 0 ≤ cost.insert (last.node j) :=
    fun j _ => (discerning.insert_pos _).le
  have parts := (add_eq_zero_iff_of_nonneg
    (add_nonneg (Finset.sum_nonneg renamed) (Finset.sum_nonneg deleted))
    (Finset.sum_nonneg inserted)).mp free
  have others := (add_eq_zero_iff_of_nonneg (Finset.sum_nonneg renamed)
    (Finset.sum_nonneg deleted)).mp parts.1
  refine ⟨?_, ?_, ?_⟩
  · intro pair member
    exact (discerning.rename_zero_iff _ _).mp
      ((Finset.sum_eq_zero_iff_of_nonneg renamed).mp others.1 pair member)
  · intro i member
    by_contra! unpaired
    have leftOver : i ∈ lefts \ pairs.image Prod.fst := by
      simpa [member] using unpaired
    exact (discerning.delete_pos _).ne'
      ((Finset.sum_eq_zero_iff_of_nonneg deleted).mp others.2 i leftOver)
  · intro j member
    by_contra! unpaired
    have leftOver : j ∈ rights \ pairs.image Prod.snd := by
      simpa [member] using unpaired
    exact (discerning.insert_pos _).ne'
      ((Finset.sum_eq_zero_iff_of_nonneg inserted).mp parts.2 j leftOver)

/-- Trees between which some mapping costs nothing have the same shape, with nodes that go
together. -/
theorem corresponds_of_free (discerning : cost.Discerning goes)
    (fits : Fits (Problem.ofTrees left right cost) (Finset.range left.size)
      (Finset.range right.size) pairs)
    (free : total (Problem.ofTrees left right cost) (Finset.range left.size)
      (Finset.range right.size) pairs = 0) :
    Tree.corresponds goes left right = true := by
  obtain ⟨together, leftPaired, rightPaired⟩ := free_total discerning free
  simp only [Finset.mem_range] at leftPaired rightPaired
  have diagonal := fits.diagonal leftPaired rightPaired
  have sizes : left.size = right.size := by
    apply Nat.le_antisymm
    · by_contra! smaller
      have paired := diagonal right.size smaller
      exact Nat.lt_irrefl _ (Finset.mem_range.mp (fits.right_mem _ paired))
    · by_contra! smaller
      obtain ⟨i, paired⟩ := rightPaired left.size smaller
      have inside : i < left.size := Finset.mem_range.mp (fits.left_mem _ paired)
      have equal : left.size = i := (fits.same_iff _ _ paired (diagonal i inside)).mp rfl
      omega
  refine Numbering.corresponds_of_numbers sizes fun index inside => ⟨?_, ?_⟩
  · exact together _ (diagonal index inside)
  · exact fits.same_firsts diagonal inside

/-! ### The mapping of a tree to one of the same shape -/

omit [AddCommGroup C] [LinearOrder C] [IsOrderedAddMonoid C] in
/-- Trees of the same shape are mapped by pairing every number with itself. -/
theorem diagonal_fits (same : Tree.corresponds goes left right = true)
    (blank : goes Node.placeholder Node.placeholder = true) :
    Fits (Problem.ofTrees left right cost) (Finset.range left.size) (Finset.range right.size)
      (Finset.range left.size).diag := by
  have sizes := Tree.size_of_corresponds same
  have firsts (index : Nat) := (Numbering.numbers_correspond same blank index).2
  simp only [Problem.ofTrees]
  refine ⟨?_, ?_, ?_, ?_⟩
  · intro pair member
    exact (Finset.mem_diag.mp member).1
  · intro pair member
    obtain ⟨inside, equal⟩ := Finset.mem_diag.mp member
    rwa [← sizes, ← equal]
  · intro pair member other otherMember
    rw [(Finset.mem_diag.mp member).2, (Finset.mem_diag.mp otherMember).2]
  · intro pair member other otherMember
    rw [(Finset.mem_diag.mp member).2, (Finset.mem_diag.mp otherMember).2, Numbering.Over,
      Numbering.Over, firsts]

omit [IsOrderedAddMonoid C] in
/-- That mapping costs nothing. -/
theorem diagonal_free (discerning : cost.Discerning goes)
    (same : Tree.corresponds goes left right = true)
    (blank : goes Node.placeholder Node.placeholder = true) :
    total (Problem.ofTrees left right cost) (Finset.range left.size) (Finset.range right.size)
      (Finset.range left.size).diag = 0 := by
  have sizes := Tree.size_of_corresponds same
  have renamed : ∑ pair ∈ (Finset.range left.size).diag,
      (Problem.ofTrees left right cost).rename pair.1 pair.2 = 0 := by
    rw [Finset.sum_diag]
    refine Finset.sum_eq_zero fun index _ => (discerning.rename_zero_iff _ _).mpr ?_
    exact (Numbering.numbers_correspond same blank index).1
  have noneLeft : Finset.range left.size \ (Finset.range left.size).diag.image Prod.fst = ∅ := by
    rw [Finset.sdiff_eq_empty_iff_subset]
    intro index inside
    exact Finset.mem_image.mpr ⟨(index, index), Finset.mem_diag.mpr ⟨inside, rfl⟩, rfl⟩
  have noneRight : Finset.range right.size \ (Finset.range left.size).diag.image Prod.snd = ∅ := by
    rw [Finset.sdiff_eq_empty_iff_subset, ← sizes]
    intro index inside
    exact Finset.mem_image.mpr ⟨(index, index), Finset.mem_diag.mpr ⟨inside, rfl⟩, rfl⟩
  rw [total, renamed, noneLeft, noneRight, Finset.sum_empty, Finset.sum_empty, add_zero, add_zero]

end Alignment

end TreeDelta
