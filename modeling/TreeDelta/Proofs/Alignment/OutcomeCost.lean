import TreeDelta.Proofs.Alignment.DistanceTable
import TreeDelta.Proofs.Alignment.Outcomes

/-!
# Costs of outcomes

An outcome that accounts for two forests costs what the mapping of its kept pairs costs. The walks
that lead to it read the table of distances again and compute the tables of forest distances anew.
These have the least costs of their forests as entries, and so agree with the table of distances
where they overlap. If neither matching nor deletion explains a distance, insertion is what it was
computed from.
-/

namespace TreeDelta.Alignment

variable {C : Type} {problem : Problem C}

section Cost

variable [AddCommGroup C]

/-- The cost of an outcome: what it keeps is renamed, the rest is deleted or inserted. -/
def Outcome.cost (problem : Problem C) (outcome : Outcome) : C :=
  (outcome.kept.map fun pair => problem.rename pair.1 pair.2).sum +
    (outcome.deleted.map problem.delete).sum + (outcome.inserted.map problem.insert).sum

/-- The costs of the parts of a complete walk add up. -/
theorem complete_cost (walk : Walk) (further : List Outcome) :
    (walk.complete further).cost problem =
      walk.outcome.cost problem + (further.map (Outcome.cost problem)).sum := by
  obtain ⟨outcome, pending⟩ := walk
  induction further generalizing outcome with
  | nil => simp [Walk.complete]
  | cons first rest inductionHypothesis =>
    refine (inductionHypothesis (outcome.append first)).trans ?_
    simp only [Outcome.cost, Outcome.append, List.map_append, List.sum_append, List.map_cons,
      List.sum_cons]
    abel

/-- A walk that also keeps a pair renames it. -/
theorem keep_cost (walk : Walk) (pair : Nat × Nat) (further : List Outcome) :
    ((walk.keep pair).complete further).cost problem =
      (walk.complete further).cost problem + problem.rename pair.1 pair.2 := by
  rw [complete_cost, complete_cost]
  simp only [Walk.keep, Outcome.cost, List.map_cons, List.sum_cons]
  abel

/-- A walk that also deletes a node pays for its deletion. -/
theorem delete_cost (walk : Walk) (i : Nat) (further : List Outcome) :
    ((walk.delete i).complete further).cost problem =
      (walk.complete further).cost problem + problem.delete i := by
  rw [complete_cost, complete_cost]
  simp only [Walk.delete, Outcome.cost, List.map_cons, List.sum_cons]
  abel

/-- A walk that also inserts a node pays for its insertion. -/
theorem insert_cost (walk : Walk) (j : Nat) (further : List Outcome) :
    ((walk.insert j).complete further).cost problem =
      (walk.complete further).cost problem + problem.insert j := by
  rw [complete_cost, complete_cost]
  simp only [Walk.insert, Outcome.cost, List.map_cons, List.sum_cons]
  abel

/-- A walk that also leaves a pair of subtrees pays for their outcome. -/
theorem postpone_cost (walk : Walk) (pair : Nat × Nat) (first : Outcome) (rest : List Outcome) :
    ((walk.postpone pair).complete (first :: rest)).cost problem =
      (walk.complete rest).cost problem + first.cost problem := by
  simp only [complete_cost, Walk.postpone, List.map_cons, List.sum_cons]
  abel

/-- An outcome costs what the mapping of its kept pairs costs. -/
theorem Accounts.cost_eq {lefts rights : Finset Nat} {outcome : Outcome}
    (accounts : Accounts problem lefts rights outcome) :
    outcome.cost problem = total problem lefts rights outcome.kept.toFinset := by
  have once : outcome.kept.Nodup := by
    have parts : (outcome.kept.map Prod.fst ++ outcome.deleted).Nodup := by
      rw [← Multiset.coe_nodup, accounts.left_once]
      exact lefts.nodup
    exact parts.of_append_left.of_map Prod.fst
  have leftSum : ∑ i ∈ lefts, problem.delete i =
      (outcome.kept.map fun pair => problem.delete pair.1).sum +
        (outcome.deleted.map problem.delete).sum := by
    rw [Finset.sum, ← accounts.left_once]
    simp [Function.comp_def]
  have rightSum : ∑ j ∈ rights, problem.insert j =
      (outcome.kept.map fun pair => problem.insert pair.2).sum +
        (outcome.inserted.map problem.insert).sum := by
    rw [Finset.sum, ← accounts.right_once]
    simp [Function.comp_def]
  rw [total_eq accounts.fits, leftSum, rightSum, Outcome.cost]
  simp only [surplus, Finset.sum_sub_distrib]
  simp only [List.sum_toFinset _ once]
  abel

end Cost

section Exact

variable [AddCommGroup C] [LinearOrder C] [CostScale C] [CostScale.Exact C]

/-- If neither matching nor deletion explains a distance, it was computed from an insertion. -/
theorem insertion_explains (nested : problem.Nested) (known : Table C) {i j : Nat}
    (inside : Inside problem (i, j)) {x y : Nat}
    (inRows : problem.left.first i + x ≤ i + 1) (inColumns : problem.right.first j + y ≤ j)
    (unexplained : x ≠ 0 →
      matchExplains problem known (problem.forestTable known i j) i j x (y + 1) = false ∧
        deletionExplains problem (problem.forestTable known i j) i (x - 1) (y + 1) = false) :
    Problem.look (problem.forestTable known i j) x (y + 1) =
      Problem.look (problem.forestTable known i j) x y +
        problem.insert (problem.right.first j + y) := by
  have rule := forest_table_rule nested known inside.1 inside.2
    (by omega : x < i - problem.left.first i + 2)
    (by omega : y + 1 < j - problem.right.first j + 2)
  cases x with
  | zero => rwa [rule_right] at rule
  | succ x =>
    obtain ⟨notMatched, notDeleted⟩ := unexplained (Nat.succ_ne_zero x)
    have self (cost : C) : CostScale.near cost cost = true := CostScale.Exact.near_self cost
    rw [rule_both] at rule
    rcases one_of_three rule with deleted | inserted | matched
    · rw [Nat.add_sub_cancel, deletionExplains, CostScale.Exact.add_eq, deleted, self]
        at notDeleted
      exact Bool.noConfusion notDeleted
    · exact inserted
    · rw [matchExplains, matched, self] at notMatched
      exact Bool.noConfusion notMatched

variable [IsOrderedAddMonoid C]

/-- The forest distances that the walks compute anew are the least costs of their forests. -/
theorem forest_least (nested : problem.Nested) {i j : Nat} (inside : Inside problem (i, j))
    (x y : Nat) (inRows : problem.left.first i + x ≤ i + 1)
    (inColumns : problem.right.first j + y ≤ j + 1) :
    Least problem (Finset.Ico (problem.left.first i) (problem.left.first i + x))
      (Finset.Ico (problem.right.first j) (problem.right.first j + y))
      (Problem.look (problem.forestTable problem.distances i j) x y) := by
  have leftInside : i < problem.left.size := inside.1
  have rightInside : j < problem.right.size := inside.2
  apply forest_table_least nested problem.distances leftInside rightInside ?_ x y inRows inColumns
  intro di dj _ leftBound _ rightBound _
  exact distances_known nested di dj (by omega) (by omega)

/-- The distance of two subtrees is found again at the end of the table of their forests. -/
theorem distance_again (nested : problem.Nested) {i j : Nat} (inside : Inside problem (i, j)) :
    Problem.look (problem.forestTable problem.distances i j) (i - problem.left.first i + 1)
      (j - problem.right.first j + 1) = Problem.look problem.distances i j := by
  have leftBound : problem.left.first i ≤ i := nested.left.first_le i inside.1
  have rightBound : problem.right.first j ≤ j := nested.right.first_le j inside.2
  have least := forest_least nested inside (i - problem.left.first i + 1)
    (j - problem.right.first j + 1) (by omega) (by omega)
  rw [← Nat.add_assoc, ← Nat.add_assoc, Nat.add_sub_cancel' leftBound,
    Nat.add_sub_cancel' rightBound] at least
  exact least.unique (distances_known nested i j inside.1 inside.2)

end Exact

end TreeDelta.Alignment
