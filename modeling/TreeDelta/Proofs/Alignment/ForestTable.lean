import TreeDelta.Proofs.Alignment.ExactCost
import TreeDelta.Proofs.Alignment.LeastCost
import TreeDelta.Proofs.Alignment.TableEntries

/-!
# Tables of forest distances

A table of forest distances is filled by a rule that looks at smaller forests, so each of its
entries satisfies the rule. On an exact scale the rule is the recursion for least costs. If the
distances of the subtrees that the rule asks for are known, the entries are therefore the least
costs of their forests.
-/

namespace TreeDelta.Alignment

variable {C : Type} [CostScale C] {problem : Problem C}

/-- The rule for two forests looks at no more than the distances of smaller forests, with fewer
nodes on one side and no more on the other, and at the distance of the last subtrees if the forests
are not whole trees. -/
theorem forest_rule_congr (nested : problem.Nested) {known other : Nat → Nat → C} {i j : Nat}
    (leftInside : i < problem.left.size) (rightInside : j < problem.right.size) {x y : Nat}
    (inRows : x < i - problem.left.first i + 2) (inColumns : y < j - problem.right.first j + 2)
    {first second : Nat → Nat → C}
    (knownAgree : x ≠ 0 → y ≠ 0 → problem.wholeTrees i j (problem.left.first i + x - 1)
        (problem.right.first j + y - 1) = false →
      known (problem.left.first i + x - 1) (problem.right.first j + y - 1) =
        other (problem.left.first i + x - 1) (problem.right.first j + y - 1))
    (agree : ∀ row column, row ≤ x → column ≤ y → ¬(row = x ∧ column = y) →
      first row column = second row column) :
    problem.forestRule known i j first x y = problem.forestRule other i j second x y := by
  have leftBound := nested.left.first_le i leftInside
  have rightBound := nested.right.first_le j rightInside
  unfold Problem.forestRule
  by_cases noRows : x = 0
  · by_cases noColumns : y = 0
    · simp [noRows, noColumns]
    · simp only [noRows, noColumns, ↓reduceIte]
      rw [agree 0 (y - 1) (by omega) (by omega) (by omega)]
  · by_cases noColumns : y = 0
    · simp only [noRows, noColumns, ↓reduceIte]
      rw [agree (x - 1) 0 (by omega) (by omega) (by omega)]
    · have leftFirst := nested.left.first_le (problem.left.first i + x - 1) (by omega)
      have rightFirst := nested.right.first_le (problem.right.first j + y - 1) (by omega)
      have above := agree (x - 1) y (by omega) (by omega) (by omega)
      have toTheLeft := agree x (y - 1) (by omega) (by omega) (by omega)
      have both := agree (x - 1) (y - 1) (by omega) (by omega) (by omega)
      have front := agree
        (problem.left.first (problem.left.first i + x - 1) - problem.left.first i)
        (problem.right.first (problem.right.first j + y - 1) - problem.right.first j)
        (by omega) (by omega) (by omega)
      simp only [noRows, noColumns, ↓reduceIte, Problem.matching, above, toTheLeft, both, front]
      cases whole : problem.wholeTrees i j (problem.left.first i + x - 1)
          (problem.right.first j + y - 1) with
      | true => rfl
      | false => simp only [knownAgree noRows noColumns whole]

/-- The rule for forests looks at earlier entries only. -/
theorem forest_rule_looks_back (nested : problem.Nested) (known : Nat → Nat → C) {i j : Nat}
    (leftInside : i < problem.left.size) (rightInside : j < problem.right.size) {x y : Nat}
    (inRows : x < i - problem.left.first i + 2) (inColumns : y < j - problem.right.first j + 2)
    (first second : Nat → Nat → C)
    (agree : ∀ row column, column < j - problem.right.first j + 2 →
      row < x ∨ row = x ∧ column < y → first row column = second row column) :
    problem.forestRule known i j first x y = problem.forestRule known i j second x y :=
  forest_rule_congr nested leftInside rightInside inRows inColumns (fun _ _ _ => rfl)
    fun row column _ _ _ => agree row column (by omega) (by omega)

/-- Every entry of a table of forest distances satisfies the rule. -/
theorem forest_table_rule (nested : problem.Nested) (known : Table C) {i j : Nat}
    (leftInside : i < problem.left.size) (rightInside : j < problem.right.size) {x y : Nat}
    (inRows : x < i - problem.left.first i + 2) (inColumns : y < j - problem.right.first j + 2) :
    Problem.look (problem.forestTable known i j) x y =
      problem.forestRule (Problem.look known) i j
        (Problem.look (problem.forestTable known i j)) x y :=
  Table.fill_entry CostScale.zero _ _ _ x y inRows inColumns
    (forest_rule_looks_back nested _ leftInside rightInside inRows inColumns)

omit [CostScale C] in
/-- Two forests are whole trees if their last nodes begin where the trees begin. -/
theorem whole_trees_iff (problem : Problem C) (i j di dj : Nat) :
    problem.wholeTrees i j di dj = true ↔
      problem.left.first di = problem.left.first i ∧
        problem.right.first dj = problem.right.first j := by
  simp [Problem.wholeTrees]

section Exact

variable [AddCommGroup C] [LinearOrder C] [CostScale.Exact C]

/-- Forests without nodes have the distance zero. -/
theorem rule_empty (known : Nat → Nat → C) (i j : Nat) (forest : Nat → Nat → C) :
    problem.forestRule known i j forest 0 0 = 0 := by
  simp [Problem.forestRule, CostScale.Exact.zero_eq]

/-- If there is nothing on the right, the last node on the left is deleted. -/
theorem rule_left (known : Nat → Nat → C) (i j : Nat) (forest : Nat → Nat → C) (x : Nat) :
    problem.forestRule known i j forest (x + 1) 0 =
      forest x 0 + problem.delete (problem.left.first i + x) := by
  simp [Problem.forestRule, CostScale.Exact.add_eq, ← Nat.add_assoc]

/-- If there is nothing on the left, the last node on the right is inserted. -/
theorem rule_right (known : Nat → Nat → C) (i j : Nat) (forest : Nat → Nat → C) (y : Nat) :
    problem.forestRule known i j forest 0 (y + 1) =
      forest 0 y + problem.insert (problem.right.first j + y) := by
  simp [Problem.forestRule, CostScale.Exact.add_eq, ← Nat.add_assoc]

/-- Otherwise the best of the three possibilities for the last nodes is taken. -/
theorem rule_both (known : Nat → Nat → C) (i j : Nat) (forest : Nat → Nat → C) (x y : Nat) :
    problem.forestRule known i j forest (x + 1) (y + 1) =
      min (min (forest x (y + 1) + problem.delete (problem.left.first i + x))
        (forest (x + 1) y + problem.insert (problem.right.first j + y)))
        (problem.matching known i j forest (x + 1) (y + 1)) := by
  simp [Problem.forestRule, CostScale.Exact.add_eq, CostScale.Exact.lesser_eq, ← Nat.add_assoc]

/-- The last nodes of two whole trees are renamed. -/
theorem matching_whole (known : Nat → Nat → C) (i j : Nat) (forest : Nat → Nat → C) (x y : Nat)
    (whole : problem.wholeTrees i j (problem.left.first i + x) (problem.right.first j + y) = true) :
    problem.matching known i j forest (x + 1) (y + 1) = forest x y +
      problem.rename (problem.left.first i + x) (problem.right.first j + y) := by
  simp [Problem.matching, CostScale.Exact.add_eq, ← Nat.add_assoc, whole]

/-- The last trees of two other forests are matched as wholes, and so is what stands in front of
them. -/
theorem matching_split (known : Nat → Nat → C) (i j : Nat) (forest : Nat → Nat → C) (x y : Nat)
    (split : problem.wholeTrees i j (problem.left.first i + x) (problem.right.first j + y) =
      false) :
    problem.matching known i j forest (x + 1) (y + 1) =
      forest (problem.left.first (problem.left.first i + x) - problem.left.first i)
        (problem.right.first (problem.right.first j + y) - problem.right.first j) +
      known (problem.left.first i + x) (problem.right.first j + y) := by
  simp [Problem.matching, CostScale.Exact.add_eq, ← Nat.add_assoc, split]

/-- The known distance of two subtrees is the least cost of mapping them. -/
def Known (problem : Problem C) (known : Table C) (i j : Nat) : Prop :=
  Least problem (Finset.Ico (problem.left.first i) (i + 1))
    (Finset.Ico (problem.right.first j) (j + 1)) (Problem.look known i j)

variable [IsOrderedAddMonoid C]

/-- The rule gives the least cost of two forests, if it finds the least costs of smaller forests and
the distances of the subtrees that it asks for are known: of these, one does not begin where the
forests begin.

The cases are those of the rule. If one of the forests has no nodes, only the last node of the other
can be deleted or inserted. If both have nodes, their last nodes are the tops of both forests, or
the forests are split in front of the last subtrees; in both cases the smaller forests have fewer
nodes. -/
theorem rule_least (nested : problem.Nested) (known : Table C) {i j : Nat}
    (leftInside : i < problem.left.size) (rightInside : j < problem.right.size)
    (enough : ∀ di dj, problem.left.first i ≤ di → di ≤ i → problem.right.first j ≤ dj → dj ≤ j →
      problem.wholeTrees i j di dj = false → Known problem known di dj)
    (forest : Nat → Nat → C) (x y : Nat) (inRows : problem.left.first i + x ≤ i + 1)
    (inColumns : problem.right.first j + y ≤ j + 1)
    (smaller : ∀ row column, row + column < x + y → row ≤ x → column ≤ y →
      Least problem (Finset.Ico (problem.left.first i) (problem.left.first i + row))
        (Finset.Ico (problem.right.first j) (problem.right.first j + column))
        (forest row column)) :
    Least problem (Finset.Ico (problem.left.first i) (problem.left.first i + x))
      (Finset.Ico (problem.right.first j) (problem.right.first j + y))
      (problem.forestRule (Problem.look known) i j forest x y) := by
  cases x with
  | zero =>
    cases y with
    | zero => simpa [rule_empty] using least_empty
    | succ y =>
      have fewer := smaller 0 y (by omega) (by omega) (by omega)
      rw [rule_right, ← Nat.add_assoc, ← Finset.insert_Ico_right_eq_Ico_add_one (by omega)]
      simp only [Nat.add_zero, Finset.Ico_self] at fewer ⊢
      exact least_insert_right (by simp) fewer
  | succ x =>
    cases y with
    | zero =>
      have fewer := smaller x 0 (by omega) (by omega) (by omega)
      rw [rule_left, ← Nat.add_assoc, ← Finset.insert_Ico_right_eq_Ico_add_one (by omega)]
      simp only [Nat.add_zero, Finset.Ico_self] at fewer ⊢
      exact least_insert_left (by simp) fewer
    | succ y =>
      have whenDeleted := smaller x (y + 1) (by omega) (by omega) (by omega)
      have whenInserted := smaller (x + 1) y (by omega) (by omega) (by omega)
      rw [rule_both, ← Nat.add_assoc, ← Nat.add_assoc]
      cases whole : problem.wholeTrees i j (problem.left.first i + x)
          (problem.right.first j + y) with
      | true =>
        have both := smaller x y (by omega) (by omega) (by omega)
        obtain ⟨leftWhole, rightWhole⟩ := (whole_trees_iff problem i j _ _).mp whole
        rw [matching_whole _ i j _ x y whole]
        exact least_whole leftWhole rightWhole (by omega) (by omega) whenDeleted whenInserted both
      | false =>
        have leftAfter := nested.left.first_mono i leftInside (problem.left.first i + x)
          (by omega) (by omega)
        have rightAfter := nested.right.first_mono j rightInside (problem.right.first j + y)
          (by omega) (by omega)
        have leftFirst := nested.left.first_le (problem.left.first i + x) (by omega)
        have rightFirst := nested.right.first_le (problem.right.first j + y) (by omega)
        have front := smaller
          (problem.left.first (problem.left.first i + x) - problem.left.first i)
          (problem.right.first (problem.right.first j + y) - problem.right.first j)
          (by omega) (by omega) (by omega)
        rw [Nat.add_sub_cancel' leftAfter, Nat.add_sub_cancel' rightAfter] at front
        have tree := enough (problem.left.first i + x) (problem.right.first j + y)
          (by omega) (by omega) (by omega) (by omega) whole
        rw [matching_split _ i j _ x y whole]
        exact least_split nested (by omega) (by omega) leftAfter rightAfter whenDeleted
          whenInserted front tree

/-- The entries of a table of forest distances are the least costs of their forests, if the
distances of all subtrees that the rule asks for are known. -/
theorem forest_table_least (nested : problem.Nested) (known : Table C) {i j : Nat}
    (leftInside : i < problem.left.size) (rightInside : j < problem.right.size)
    (enough : ∀ di dj, problem.left.first i ≤ di → di ≤ i → problem.right.first j ≤ dj → dj ≤ j →
      problem.wholeTrees i j di dj = false → Known problem known di dj)
    (x y : Nat) (inRows : problem.left.first i + x ≤ i + 1)
    (inColumns : problem.right.first j + y ≤ j + 1) :
    Least problem (Finset.Ico (problem.left.first i) (problem.left.first i + x))
      (Finset.Ico (problem.right.first j) (problem.right.first j + y))
      (Problem.look (problem.forestTable known i j) x y) := by
  have leftBound := nested.left.first_le i leftInside
  have rightBound := nested.right.first_le j rightInside
  induction size : x + y using Nat.strong_induction_on generalizing x y with
  | _ size inductionHypothesis =>
    rw [forest_table_rule nested known leftInside rightInside (by omega) (by omega)]
    apply rule_least nested known leftInside rightInside enough _ x y inRows inColumns
    intro row column less rows columns
    exact inductionHypothesis (row + column) (by omega) row column (by omega) (by omega) rfl

end Exact

end TreeDelta.Alignment
