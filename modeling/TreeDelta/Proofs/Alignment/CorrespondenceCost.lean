import Mathlib.Algebra.Module.Submodule.Lattice
import Mathlib.Tactic.Linarith
import TreeDelta.Proofs.Alignment.KeptPairs
import TreeDelta.Proofs.Alignment.OutcomeCost

/-!
# Costs of correspondences

A walk takes a possibility if its cost passes as equal to the distance, so each step may add to the
cost what the comparison lets through. A step that compares passes a node or leaves two subtrees, so
the cost of an outcome exceeds the distance by at most twice as much for each node as one comparison
lets through. If costs that pass as equal are equal, as whole numbers are, nothing is added, and the
correspondence costs what the distance says.
-/

namespace TreeDelta.Alignment

/-- All costs of a problem are taken from a group of numbers of which one passes as equal to another
only if it exceeds that by no more than the slack. -/
structure Slack (problem : Problem Rat) (costs : AddSubgroup Rat) (slack : Rat) : Prop where
  rename_mem : ∀ i j, problem.rename i j ∈ costs
  delete_mem : ∀ i, problem.delete i ∈ costs
  insert_mem : ∀ j, problem.insert j ∈ costs
  nonneg : 0 ≤ slack
  near_le : ∀ first ∈ costs, ∀ second ∈ costs,
    CostScale.near first second = true → second ≤ first + slack

variable {problem : Problem Rat} {costs : AddSubgroup Rat} {slack : Rat}

/-- A least cost is the cost of some mapping, and so a member of the group of all costs. -/
theorem Slack.least_mem (bounded : Slack problem costs slack) {lefts rights : Finset Nat}
    {cost : Rat} (least : Least problem lefts rights cost) : cost ∈ costs := by
  obtain ⟨⟨pairs, fits, rfl⟩, -⟩ := least
  apply add_mem (add_mem ?_ ?_)
  · apply sum_mem
    intro j _
    exact bounded.insert_mem j
  · apply sum_mem
    intro pair _
    exact bounded.rename_mem pair.1 pair.2
  · apply sum_mem
    intro i _
    exact bounded.delete_mem i

/-- The outcome costs no more than the distance of the two subtrees and what the comparisons let
through: twice the slack for every node, but for one of them only once. -/
def CostsAtMost (problem : Problem Rat) (slack : Rat) (pair : Nat × Nat) (outcome : Outcome) :
    Prop :=
  outcome.cost problem + slack ≤ Problem.look problem.distances pair.1 pair.2 +
    slack * (2 * (extent problem pair + 2 : Nat))

/-- What an outcome may cost for the forests of `x` and `y` nodes that begin where `i` and `j`
begin: their distance, and twice the slack for every node. -/
def allowed (problem : Problem Rat) (slack : Rat) (i j x y : Nat) : Rat :=
  Problem.look (problem.forestTable problem.distances i j) x y + slack * (2 * (x + y))

section Steps

variable {i j x y : Nat}

/-- If matching explains a distance, the distance of what is in front and the cost of the match
exceed it by the slack at most. -/
theorem Slack.matching_le (bounded : Slack problem costs slack) (nested : problem.Nested)
    (inside : Inside problem (i, j)) (inRows : problem.left.first i + x ≤ i)
    (inColumns : problem.right.first j + y ≤ j)
    (explains : matchExplains problem problem.distances (problem.forestTable problem.distances i j)
      i j (x + 1) (y + 1) = true) :
    problem.matching (Problem.look problem.distances) i j
        (Problem.look (problem.forestTable problem.distances i j)) (x + 1) (y + 1) ≤
      Problem.look (problem.forestTable problem.distances i j) (x + 1) (y + 1) + slack := by
  have least := forest_least nested inside
  have here := bounded.least_mem (least (x + 1) (y + 1) (by omega) (by omega))
  refine bounded.near_le _ here _ ?_ explains
  cases whole : problem.wholeTrees i j (problem.left.first i + x) (problem.right.first j + y) with
  | true =>
    rw [matching_whole _ i j _ x y whole]
    exact add_mem (bounded.least_mem (least x y (by omega) (by omega))) (bounded.rename_mem _ _)
  | false =>
    have leftInside : i < problem.left.size := inside.1
    have rightInside : j < problem.right.size := inside.2
    have leftFirst := nested.left.first_le (problem.left.first i + x) (by omega)
    have rightFirst := nested.right.first_le (problem.right.first j + y) (by omega)
    rw [matching_split _ i j _ x y whole]
    apply add_mem (bounded.least_mem (least _ _ (by omega) (by omega)))
    exact bounded.least_mem
      (distances_known nested _ _ (by omega) (by omega))

/-- If deletion explains a distance, the distance of what is left and the cost of the deletion
exceed it by the slack at most. -/
theorem Slack.deletion_le (bounded : Slack problem costs slack) (nested : problem.Nested)
    (inside : Inside problem (i, j)) (inRows : problem.left.first i + x ≤ i)
    (inColumns : problem.right.first j + y ≤ j + 1)
    (explains : deletionExplains problem (problem.forestTable problem.distances i j) i x y = true) :
    Problem.look (problem.forestTable problem.distances i j) x y +
        problem.delete (problem.left.first i + x) ≤
      Problem.look (problem.forestTable problem.distances i j) (x + 1) y + slack := by
  have least := forest_least nested inside
  have here := bounded.least_mem (least (x + 1) y (by omega) (by omega))
  have fewer := bounded.least_mem (least x y (by omega) (by omega))
  exact bounded.near_le _ here _ (add_mem fewer (bounded.delete_mem _)) explains

/-- Keeping the tops of two whole trees stays within what is allowed, with the slack to spare. -/
theorem Slack.keep_allowed (bounded : Slack problem costs slack) (nested : problem.Nested)
    (inside : Inside problem (i, j)) (inRows : problem.left.first i + x ≤ i)
    (inColumns : problem.right.first j + y ≤ j)
    (whole : problem.wholeTrees i j (problem.left.first i + x) (problem.right.first j + y) = true)
    (explains : matchExplains problem problem.distances (problem.forestTable problem.distances i j)
      i j (x + 1) (y + 1) = true)
    (spent : Rat) (below : spent ≤ allowed problem slack i j x y) :
    spent + problem.rename (problem.left.first i + x) (problem.right.first j + y) + slack ≤
      allowed problem slack i j (x + 1) (y + 1) := by
  have step := bounded.matching_le nested inside inRows inColumns explains
  have nonneg := bounded.nonneg
  rw [matching_whole _ i j _ x y whole] at step
  simp only [allowed] at below ⊢
  push_cast
  linarith

/-- Deleting a node stays within what is allowed, with the slack to spare. -/
theorem Slack.delete_allowed (bounded : Slack problem costs slack) (nested : problem.Nested)
    (inside : Inside problem (i, j)) (inRows : problem.left.first i + x ≤ i)
    (inColumns : problem.right.first j + y ≤ j + 1)
    (explains : deletionExplains problem (problem.forestTable problem.distances i j) i x y = true)
    (spent : Rat) (below : spent ≤ allowed problem slack i j x y) :
    spent + problem.delete (problem.left.first i + x) + slack ≤
      allowed problem slack i j (x + 1) y := by
  have step := bounded.deletion_le nested inside inRows inColumns explains
  simp only [allowed] at below ⊢
  push_cast
  linarith

/-- Inserting a node stays within what is allowed, with the slack to spare: as nothing else explains
the distance, it was computed from this insertion. -/
theorem Slack.insert_allowed (bounded : Slack problem costs slack) (nested : problem.Nested)
    (inside : Inside problem (i, j)) (inRows : problem.left.first i + x ≤ i + 1)
    (inColumns : problem.right.first j + y ≤ j)
    (unexplained : x ≠ 0 →
      matchExplains problem problem.distances (problem.forestTable problem.distances i j) i j x
          (y + 1) = false ∧
        deletionExplains problem (problem.forestTable problem.distances i j) i (x - 1) (y + 1) =
          false)
    (spent : Rat) (below : spent ≤ allowed problem slack i j x y) :
    spent + problem.insert (problem.right.first j + y) + slack ≤
      allowed problem slack i j x (y + 1) := by
  have step := insertion_explains nested problem.distances inside inRows inColumns unexplained
  have nonneg := bounded.nonneg
  simp only [allowed] at below ⊢
  push_cast
  linarith

/-- Leaving the last subtrees to a walk of their own stays within what is allowed: that walk has the
slack to spare that the comparison here lets through. -/
theorem Slack.postpone_allowed (bounded : Slack problem costs slack) (nested : problem.Nested)
    (inside : Inside problem (i, j)) (inRows : problem.left.first i + x ≤ i)
    (inColumns : problem.right.first j + y ≤ j)
    (split : problem.wholeTrees i j (problem.left.first i + x) (problem.right.first j + y) = false)
    (explains : matchExplains problem problem.distances (problem.forestTable problem.distances i j)
      i j (x + 1) (y + 1) = true)
    (spent : Rat) (front : spent ≤ allowed problem slack i j
      (problem.left.first (problem.left.first i + x) - problem.left.first i)
      (problem.right.first (problem.right.first j + y) - problem.right.first j))
    (outcome : Outcome) (tree : CostsAtMost problem slack
      (problem.left.first i + x, problem.right.first j + y) outcome) :
    spent + outcome.cost problem ≤ allowed problem slack i j (x + 1) (y + 1) := by
  have leftInside : i < problem.left.size := inside.1
  have rightInside : j < problem.right.size := inside.2
  have leftAfter := nested.left.first_mono i leftInside (problem.left.first i + x)
    (by omega) (by omega)
  have rightAfter := nested.right.first_mono j rightInside (problem.right.first j + y)
    (by omega) (by omega)
  have leftFirst := nested.left.first_le (problem.left.first i + x) (by omega)
  have rightFirst := nested.right.first_le (problem.right.first j + y) (by omega)
  have step := bounded.matching_le nested inside inRows inColumns explains
  rw [matching_split _ i j _ x y split] at step
  -- The nodes in front of the last subtrees and the nodes of these are all nodes.
  have nodes : problem.left.first (problem.left.first i + x) - problem.left.first i +
      (problem.right.first (problem.right.first j + y) - problem.right.first j) +
      (extent problem (problem.left.first i + x, problem.right.first j + y) + 2) =
      x + 1 + (y + 1) := by
    simp only [extent]
    omega
  have counted := congrArg (fun count : Nat => slack * (2 * (count : Rat))) nodes
  simp only [CostsAtMost, allowed] at front tree ⊢
  push_cast at counted tree ⊢
  linarith

/-- The outcome of a walk costs no more than is allowed for its forests. If the forests are whole
trees, the slack is to spare, because the first step does not leave them to another walk.

The induction follows the walk, with one lemma for what each sort of step may cost. Only where
subtrees are left to another walk nothing is to spare, and there the forests are not whole trees. -/
theorem Slack.passed_cost (bounded : Slack problem costs slack) (nested : problem.Nested)
    (inside : Inside problem (i, j)) {walk : Walk}
    (passed : Passed problem problem.distances (problem.forestTable problem.distances i j) i j x y
      walk)
    (inRows : problem.left.first i + x ≤ i + 1) (inColumns : problem.right.first j + y ≤ j + 1)
    (further : List Outcome)
    (related : List.Forall₂ (CostsAtMost problem slack) walk.pending further) :
    (walk.complete further).cost problem ≤ allowed problem slack i j x y ∧
      (x ≠ 0 → y ≠ 0 → problem.wholeTrees i j (problem.left.first i + x - 1)
          (problem.right.first j + y - 1) = true →
        (walk.complete further).cost problem + slack ≤ allowed problem slack i j x y) := by
  have nonneg := bounded.nonneg
  induction passed generalizing further with
  | start =>
    obtain rfl := List.forall₂_nil_left_iff.mp related
    have least := forest_least nested inside 0 0 (by omega) (by omega)
    simp only [Nat.add_zero, Finset.Ico_self] at least
    have zero := least.unique least_empty
    simp [allowed, zero, Walk.complete, Walk.start, Outcome.empty, Outcome.cost]
  | keep x y walk whole explains passedFurther inductionHypothesis =>
    obtain ⟨below, -⟩ := inductionHypothesis (by omega) (by omega) further related
    have spare := bounded.keep_allowed nested inside (by omega) (by omega) whole explains _ below
    rw [keep_cost]
    exact ⟨by linarith, fun _ _ _ => spare⟩
  | postpone x y walk split explains passedFurther inductionHypothesis =>
    obtain ⟨first, rest, tree, others, rfl⟩ := List.forall₂_cons_left_iff.mp related
    have leftFirst := nested.left.first_le (problem.left.first i + x)
      (Nat.lt_of_lt_of_le (by omega) inside.1)
    have rightFirst := nested.right.first_le (problem.right.first j + y)
      (Nat.lt_of_lt_of_le (by omega) inside.2)
    obtain ⟨front, -⟩ := inductionHypothesis (by omega) (by omega) rest others
    have both := bounded.postpone_allowed nested inside (by omega) (by omega) split explains _
      front first tree
    rw [postpone_cost]
    constructor
    · exact both
    · intro _ _ whole
      rw [← Nat.add_assoc, ← Nat.add_assoc, Nat.add_sub_cancel, Nat.add_sub_cancel, split] at whole
      exact Bool.noConfusion whole
  | delete x y walk explains passedFurther inductionHypothesis =>
    obtain ⟨below, -⟩ := inductionHypothesis (by omega) (by omega) further related
    have spare := bounded.delete_allowed nested inside (by omega) (by omega) explains _ below
    rw [delete_cost]
    exact ⟨by linarith, fun _ _ _ => spare⟩
  | insert x y walk unexplained passedFurther inductionHypothesis =>
    obtain ⟨below, -⟩ := inductionHypothesis (by omega) (by omega) further related
    have spare := bounded.insert_allowed nested inside (by omega) (by omega) unexplained _ below
    rw [insert_cost]
    exact ⟨by linarith, fun _ _ _ => spare⟩

end Steps

/-- The outcome for two subtrees costs no more than their distance and what the comparisons let
through. -/
theorem Slack.outcome_cost (bounded : Slack problem costs slack) (nested : problem.Nested)
    (rounds : Nat) (pair : Nat × Nat) (outcome : Outcome) (inside : Inside problem pair)
    (found : problem.outcomeBetween problem.distances rounds pair = some outcome) :
    CostsAtMost problem slack pair outcome := by
  refine outcome_induction nested ?_ rounds pair outcome inside found
  intro i j walk further inside passed related
  have leftBound : problem.left.first i ≤ i := nested.left.first_le i inside.1
  have rightBound : problem.right.first j ≤ j := nested.right.first_le j inside.2
  obtain ⟨-, spare⟩ :=
    bounded.passed_cost nested inside passed (by omega) (by omega) further related
  have whole : problem.wholeTrees i j
      (problem.left.first i + (i - problem.left.first i + 1) - 1)
      (problem.right.first j + (j - problem.right.first j + 1) - 1) = true := by
    rw [← Nat.add_assoc, ← Nat.add_assoc, Nat.add_sub_cancel, Nat.add_sub_cancel,
      Nat.add_sub_cancel' leftBound, Nat.add_sub_cancel' rightBound]
    exact (whole_trees_iff problem i j i j).mpr ⟨rfl, rfl⟩
  have atMost := spare (Nat.succ_ne_zero _) (Nat.succ_ne_zero _) whole
  rw [allowed, distance_again nested inside] at atMost
  have nodes : i - problem.left.first i + 1 + (j - problem.right.first j + 1) =
      extent problem (i, j) + 2 := by
    simp only [extent]
    omega
  rw [CostsAtMost, ← nodes]
  exact_mod_cast atMost

section Trees

variable (cost : CostModel Rat) (left right : SyntaxTree)

/-- The cost of a list of pairs of nodes of two trees: paired nodes are renamed, nodes of the left
tree in no pair are deleted, and nodes of the right tree in no pair are inserted. -/
def pairsCost (pairs : List (Nat × Nat)) : Rat :=
  (pairs.map fun pair => cost.rename (left.nodeAt pair.1) (right.nodeAt pair.2)).sum +
    (((List.range left.size).filter (· ∉ pairs.map Prod.fst)).map fun i =>
      cost.delete (left.nodeAt i)).sum +
    (((List.range right.size).filter (· ∉ pairs.map Prod.snd)).map fun j =>
      cost.insert (right.nodeAt j)).sum

/-- A list of pairs without repetitions costs what its pairs cost as a mapping. -/
theorem pairs_cost_eq (pairs : List (Nat × Nat)) (once : pairs.Nodup) :
    pairsCost cost left right pairs =
      mappingCost cost left right (left.size - 1) (right.size - 1) pairs.toFinset := by
  have unpaired (size : Nat) (side : Nat × Nat → Nat) (price : Nat → Rat) :
      (((List.range size).filter (· ∉ pairs.map side)).map price).sum =
        ∑ index ∈ Finset.range size \ pairs.toFinset.image side, price index := by
    rw [← List.sum_toFinset price (List.nodup_range.filter _)]
    congr 1
    ext index
    simp
  rw [pairsCost, mappingCost, subtree_of_last, subtree_of_last, unpaired, unpaired,
    ← List.sum_toFinset _ once]

/-- The correspondence of two trees costs no less than their distance, and no more than their
distance and what the comparisons let through. -/
theorem correspondence_cost_bounds
    (bounded : Slack (Problem.ofTrees left right cost) costs slack) :
    distance left right cost ≤ pairsCost cost left right (correspondence cost left right) ∧
      pairsCost cost left right (correspondence cost left right) + slack ≤
        distance left right cost + slack * (2 * (left.size + right.size)) := by
  obtain ⟨outcome, found, accounts⟩ := exists_whole_outcome cost left right
  have listed : correspondence cost left right = outcome.kept.mergeSort pairNotAfter := by
    simp [correspondence, found]
  have same : (correspondence cost left right).toFinset = outcome.kept.toFinset := by
    rw [listed]
    exact List.toFinset_eq_of_perm _ _ (List.mergeSort_perm _ _)
  have once : (correspondence cost left right).Nodup := by
    apply (correspondence_fits cost left right).2.imp
    rintro early late before rfl
    exact Nat.lt_irrefl _ before.1
  have spent : pairsCost cost left right (correspondence cost left right) =
      outcome.cost (Problem.ofTrees left right cost) := by
    rw [pairs_cost_eq cost left right _ once, mapping_cost_eq, subtree_of_last, subtree_of_last,
      accounts.cost_eq, same]
  constructor
  · rw [pairs_cost_eq cost left right _ once]
    exact (whole_distance_least left right cost).2 ⟨_, correspondence_mapping cost left right, rfl⟩
  · have nodes := extent_of_last_pair left right cost
    rw [outcome_of_trees] at found
    have atMost := bounded.outcome_cost (nested_of_trees left right cost) _ _ outcome
      (last_pair_inside left right cost) found
    rw [CostsAtMost, nodes, ← distance_of_trees] at atMost
    rw [spent]
    exact_mod_cast atMost

end Trees

/-- All costs of the model are whole numbers. -/
structure WholeCosts (cost : CostModel Rat) : Prop where
  rename : ∀ first second, ∃ number : Int, cost.rename first second = number
  insert : ∀ node, ∃ number : Int, cost.insert node = number
  delete : ∀ node, ∃ number : Int, cost.delete node = number

/-- Whole numbers pass as equal only if they are equal. -/
theorem near_whole (first second : Int) (near : CostScale.near (first : Rat) second = true) :
    first = second := by
  simp only [CostScale.near, Bool.and_eq_true, decide_eq_true_eq] at near
  have small : CostScale.tolerance < 1 := by norm_num [CostScale.tolerance]
  have above : ((first - second : Int) : Rat) < (1 : Int) := by
    push_cast
    linarith [near.1]
  have below : ((second - first : Int) : Rat) < (1 : Int) := by
    push_cast
    linarith [near.2]
  have notAbove := Int.cast_lt.mp above
  have notBelow := Int.cast_lt.mp below
  omega

/-- Comparisons of whole numbers let nothing through. -/
theorem WholeCosts.slack_zero {cost : CostModel Rat} (whole : WholeCosts cost)
    (left right : SyntaxTree) :
    Slack (Problem.ofTrees left right cost) (Int.castAddHom Rat).range 0 where
  rename_mem i j := by
    obtain ⟨number, same⟩ := whole.rename ((Numbering.ofTree left).node i)
      ((Numbering.ofTree right).node j)
    exact ⟨number, same.symm⟩
  delete_mem i := by
    obtain ⟨number, same⟩ := whole.delete ((Numbering.ofTree left).node i)
    exact ⟨number, same.symm⟩
  insert_mem j := by
    obtain ⟨number, same⟩ := whole.insert ((Numbering.ofTree right).node j)
    exact ⟨number, same.symm⟩
  nonneg := le_refl 0
  near_le := by
    rintro _ ⟨first, rfl⟩ _ ⟨second, rfl⟩ near
    rw [near_whole first second near, add_zero]

/-- The costs of the unit model are whole numbers. -/
theorem unit_whole : WholeCosts CostModel.unit where
  rename first second := by
    by_cases agree : first.agrees false second = true
    · exact ⟨0, by simp [CostModel.unit, agree, CostScale.zero]⟩
    · exact ⟨1, by simp [CostModel.unit, agree, CostScale.unit]⟩
  insert _ := ⟨1, by simp [CostModel.unit, CostScale.unit]⟩
  delete _ := ⟨1, by simp [CostModel.unit, CostScale.unit]⟩

/-- If all costs are whole numbers, the correspondence of two trees is a cheapest one: it costs
their distance. -/
theorem correspondence_optimal (cost : CostModel Rat) (whole : WholeCosts cost)
    (left right : SyntaxTree) :
    pairsCost cost left right (correspondence cost left right) = distance left right cost := by
  obtain ⟨notLess, notMore⟩ :=
    correspondence_cost_bounds cost left right (whole.slack_zero left right)
  simp only [add_zero, zero_mul] at notMore
  exact le_antisymm notMore notLess

/-- A list of `a` and `b` is turned into a list of `b` by deleting `a`. -/
theorem unit_correspondence_optimal :
    pairsCost CostModel.unit
      (.node (Node.bare "list") [("0", .leaf (Node.bare "a")), ("1", .leaf (Node.bare "b"))])
      (.node (Node.bare "list") [("0", .leaf (Node.bare "b"))]) [(1, 0), (2, 1)] = 1 := by
  have optimal := correspondence_optimal CostModel.unit unit_whole
    (.node (Node.bare "list") [("0", .leaf (Node.bare "a")), ("1", .leaf (Node.bare "b"))])
    (.node (Node.bare "list") [("0", .leaf (Node.bare "b"))])
  have pairs : correspondence (CostModel.unit : CostModel Rat)
      (.node (Node.bare "list") [("0", .leaf (Node.bare "a")), ("1", .leaf (Node.bare "b"))])
      (.node (Node.bare "list") [("0", .leaf (Node.bare "b"))]) = [(1, 0), (2, 1)] := by
    cbv
  have least : distance
      (.node (Node.bare "list") [("0", .leaf (Node.bare "a")), ("1", .leaf (Node.bare "b"))])
      (.node (Node.bare "list") [("0", .leaf (Node.bare "b"))]) (CostModel.unit : CostModel Rat) =
      1 := by
    cbv
  rwa [pairs, least] at optimal

/-- A comparison of two fractions, whatever they are, lets no more through than the tolerance. -/
theorem tolerance_slack (cost : CostModel Rat) (left right : SyntaxTree) :
    Slack (Problem.ofTrees left right cost) ⊤ CostScale.tolerance where
  rename_mem _ _ := AddSubgroup.mem_top _
  delete_mem _ := AddSubgroup.mem_top _
  insert_mem _ := AddSubgroup.mem_top _
  nonneg := by norm_num [CostScale.tolerance]
  near_le first _ second _ near := by
    simp only [CostScale.near, Bool.and_eq_true, decide_eq_true_eq] at near
    linarith [near.2]

/-- Whatever the costs of the operations are: the alignment of two trees comes to an end, and what
it keeps costs no less than the distance of the trees, and exceeds it by less than two
thousand-millionths for every node. -/
theorem correspondence_within_tolerance (cost : CostModel Rat) (left right : SyntaxTree) :
    (∃ outcome, (Problem.ofTrees left right cost).outcome? = some outcome ∧
      correspondence cost left right = outcome.kept.mergeSort pairNotAfter) ∧
    distance left right cost ≤ pairsCost cost left right (correspondence cost left right) ∧
    pairsCost cost left right (correspondence cost left right) - distance left right cost <
      2 * (left.size + right.size) * (1 / 10 ^ 9) := by
  obtain ⟨outcome, found, -⟩ := exists_whole_outcome cost left right
  obtain ⟨notLess, notMore⟩ :=
    correspondence_cost_bounds cost left right (tolerance_slack cost left right)
  refine ⟨⟨outcome, found, by simp [correspondence, found]⟩, notLess, ?_⟩
  -- The top of one of the trees is always passed by the first step, so one tolerance is to spare.
  have spare : (0 : Rat) < CostScale.tolerance := by norm_num [CostScale.tolerance]
  have tolerance : CostScale.tolerance = 1 / 10 ^ 9 := by norm_num [CostScale.tolerance]
  rw [← tolerance]
  linarith

/-- The excess does occur: where one word can be renamed into the other for less than the tolerance,
it is, although to delete the one and to insert the other would cost nothing. -/
example :
    let cost : CostModel Rat := ⟨fun _ _ => 1 / 10 ^ 10, fun _ => 0, fun _ => 0⟩
    distance (.leaf (Node.bare "a")) (.leaf (Node.bare "b")) cost = 0 ∧
      pairsCost cost (.leaf (Node.bare "a")) (.leaf (Node.bare "b"))
        (correspondence cost (.leaf (Node.bare "a")) (.leaf (Node.bare "b"))) = 1 / 10 ^ 10 := by
  constructor <;> cbv

end TreeDelta.Alignment
