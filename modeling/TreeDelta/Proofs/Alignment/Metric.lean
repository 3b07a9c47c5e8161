import TreeDelta.Proofs.Alignment.ComposedMappings
import TreeDelta.Proofs.Alignment.FreeMappings
import TreeDelta.Proofs.Alignment.TreeDistance

/-!
# Distances as a metric

The distance of two trees is the least cost of a mapping between them, so what can be done with
mappings can be said of distances. A mapping can be read backwards, and two mappings can be made one
after the other; a free mapping exists exactly between trees of the same shape. If the costs of
single nodes are the same in both directions, know no cheap detours and tell nodes apart, distances
are symmetric, obey the triangle inequality, and vanish only between trees that cannot be told
apart. The costs of one unit for everything are such costs, and trees that cannot be told apart by
them are equal trees.
-/

namespace TreeDelta.Alignment

section Exact

variable {C : Type} [AddCommGroup C] [LinearOrder C] [IsOrderedAddMonoid C] [CostScale C]
  [CostScale.Exact C] {cost : CostModel C}

/-- The distance of two trees is the least cost of a mapping between their numbers. -/
theorem distance_least (left right : SyntaxTree) (cost : CostModel C) :
    Least (Problem.ofTrees left right cost) (Finset.range left.size) (Finset.range right.size)
      (distance left right cost) := by
  have least := whole_distance_least left right cost
  simp only [ordered_mapping_iff left right cost _ _ left.last_inside right.last_inside,
    mapping_cost_eq, subtree_of_last] at least
  exact least

/-- If the costs are the same in both directions, the distance of two trees is at most what it is
backwards. -/
theorem distance_le_swap (reversible : cost.Reversible) (left right : SyntaxTree) :
    distance left right cost ≤ distance right left cost := by
  obtain ⟨⟨pairs, fits, attained⟩, -⟩ := distance_least right left cost
  rw [← attained]
  exact (distance_least left right cost).2 ⟨_, fits.swap, total_swap reversible fits⟩

/-- If the costs are the same in both directions, so are the distances. -/
theorem distance_comm (reversible : cost.Reversible) (left right : SyntaxTree) :
    distance left right cost = distance right left cost :=
  le_antisymm (distance_le_swap reversible left right) (distance_le_swap reversible right left)

/-- If no detour is cheaper than the direct way, the way by a tree in the middle is no shorter than
the distance. -/
theorem distance_triangle (direct : cost.Direct) (left middle right : SyntaxTree) :
    distance left right cost ≤ distance left middle cost + distance middle right cost := by
  obtain ⟨⟨pairs, fits, into⟩, -⟩ := distance_least left middle cost
  obtain ⟨⟨others, othersFit, out⟩, -⟩ := distance_least middle right cost
  calc distance left right cost
      ≤ total (Problem.ofTrees left right cost) (Finset.range left.size) (Finset.range right.size)
          (composed pairs others) :=
        (distance_least left right cost).2 ⟨_, fits.compose othersFit, rfl⟩
    _ ≤ _ := total_composed_le direct fits othersFit
    _ = distance left middle cost + distance middle right cost := congrArg₂ (· + ·) into out

/-- If the costs tell nodes apart that do not go together, the distance of two trees is zero exactly
if they have the same shape, with nodes that go together. -/
theorem distance_zero_iff {goes : Node → Node → Bool} (discerning : cost.Discerning goes)
    (blank : goes Node.placeholder Node.placeholder = true) (left right : SyntaxTree) :
    distance left right cost = 0 ↔ Tree.corresponds goes left right = true := by
  obtain ⟨⟨pairs, fits, attained⟩, bound⟩ := distance_least left right cost
  constructor
  · intro zero
    exact corresponds_of_free discerning fits (attained.trans zero)
  · intro same
    refine le_antisymm ?_ ?_
    · exact bound ⟨_, diagonal_fits same blank, diagonal_free discerning same blank⟩
    · rw [← attained]
      exact total_nonneg discerning _ _ _ _ _

end Exact

/-! ### One unit for everything -/

/-- Two nodes agree in both directions or in none. -/
theorem agrees_comm (first second : Node) :
    first.agrees false second = second.agrees false first := by
  rw [Bool.eq_iff_iff, Node.agrees_iff, Node.agrees_iff]
  exact and_congr eq_comm eq_comm

/-- A node agrees with what a node that agrees with it agrees with. -/
theorem agrees_trans {first middle last : Node} (into : first.agrees false middle = true)
    (out : middle.agrees false last = true) : first.agrees false last = true := by
  rw [Node.agrees_iff] at into out ⊢
  exact ⟨out.1.trans into.1, out.2.trans into.2⟩

/-- By unit costs, renaming costs one unit or nothing. -/
theorem unit_rename (first second : Node) : (CostModel.unit : CostModel Rat).rename first second =
    if first.agrees false second = true then 0 else 1 := rfl

/-- By unit costs, renaming costs something or nothing. -/
theorem unit_rename_nonneg (first second : Node) :
    0 ≤ (CostModel.unit : CostModel Rat).rename first second := by
  rw [unit_rename]
  split
  · exact le_rfl
  · exact zero_le_one

/-- By unit costs, renaming costs one unit at most. -/
theorem unit_rename_le_one (first second : Node) :
    (CostModel.unit : CostModel Rat).rename first second ≤ 1 := by
  rw [unit_rename]
  split
  · exact zero_le_one
  · exact le_rfl

/-- Unit costs are the same in both directions. -/
theorem unit_reversible : (CostModel.unit : CostModel Rat).Reversible where
  rename_comm first second := by simp only [CostModel.unit, agrees_comm first second]
  delete_eq_insert _ := rfl

/-- By unit costs no detour is cheaper than the direct way. -/
theorem unit_direct : (CostModel.unit : CostModel Rat).Direct where
  rename_le first middle last := by
    by_cases into : first.agrees false middle = true
    · by_cases out : middle.agrees false last = true
      · rw [unit_rename first last, if_pos (agrees_trans into out)]
        exact add_nonneg (unit_rename_nonneg first middle) (unit_rename_nonneg middle last)
      · rw [unit_rename middle last, if_neg out]
        exact (unit_rename_le_one first last).trans
          (le_add_of_nonneg_left (unit_rename_nonneg first middle))
    · rw [unit_rename first middle, if_neg into]
      exact (unit_rename_le_one first last).trans
        (le_add_of_nonneg_right (unit_rename_nonneg middle last))
  delete_le first middle := le_add_of_nonneg_left (unit_rename_nonneg first middle)
  insert_le middle last := le_add_of_nonneg_right (unit_rename_nonneg middle last)
  nothing_le _ := by norm_num [CostModel.unit, CostScale.unit]

/-- Unit costs tell nodes apart that do not agree. -/
theorem unit_discerning : (CostModel.unit : CostModel Rat).Discerning (Node.agrees false) where
  rename_nonneg := unit_rename_nonneg
  rename_zero_iff first second := by
    rw [unit_rename]
    split
    · next agree => exact iff_of_true rfl agree
    · next differ => exact iff_of_false one_ne_zero differ
  delete_pos _ := by norm_num [CostModel.unit, CostScale.unit]
  insert_pos _ := by norm_num [CostModel.unit, CostScale.unit]

/-- By unit costs, the distance is a metric of trees up to equality: it is zero exactly between
equal trees, it is the same in both directions, and the way by a tree in the middle is never
shorter. -/
theorem unit_distance_metric (left middle right : SyntaxTree) :
    (distance left right (CostModel.unit : CostModel Rat) = 0 ↔
        left.agrees false false right = true) ∧
      distance left right (CostModel.unit : CostModel Rat) = distance right left CostModel.unit ∧
      distance left right (CostModel.unit : CostModel Rat) ≤
        distance left middle CostModel.unit + distance middle right CostModel.unit := by
  refine ⟨?_, distance_comm unit_reversible left right, distance_triangle unit_direct _ _ _⟩
  rw [Tree.agrees_eq_corresponds]
  exact distance_zero_iff unit_discerning (Node.agrees_self _) left right

end TreeDelta.Alignment
