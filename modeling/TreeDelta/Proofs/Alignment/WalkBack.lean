import TreeDelta.Alignment.Outcome
import TreeDelta.Proofs.Alignment.ForestTable

/-!
# Walking back through a table

A walk through a table of forest distances is described here by its steps and without its bound. The
steps say which nodes are passed and what the comparisons of costs have shown, so whatever holds of
all walks follows by induction on the steps. On an exact scale every distance is one of the sums
that it is compared with, so a walk that has as many steps as there are nodes comes to an end.
-/

namespace TreeDelta.Alignment

variable {C : Type} [CostScale C]

/-- Matching the last nodes explains the distance of the forests of `x` and `y` nodes. -/
def matchExplains (problem : Problem C) (known forests : Table C) (i j x y : Nat) : Bool :=
  CostScale.near (Problem.look forests x y)
    (problem.matching (Problem.look known) i j (Problem.look forests) x y)

/-- Deleting the last node on the left explains the distance of the forests of `x + 1` and `y`
nodes. -/
def deletionExplains (problem : Problem C) (forests : Table C) (i x y : Nat) : Bool :=
  CostScale.near (Problem.look forests (x + 1) y)
    (CostScale.add (Problem.look forests x y) (problem.delete (problem.left.first i + x)))

/-- The walks through the forests of `x` and `y` nodes that begin where `i` and `j` begin, with what
each step has found. -/
inductive Passed (problem : Problem C) (known forests : Table C) (i j : Nat) :
    Nat → Nat → Walk → Prop
  /-- There is nothing to pass. -/
  | start : Passed problem known forests i j 0 0 Walk.start
  /-- The tops of two whole trees are kept. -/
  | keep (x y : Nat) (walk : Walk)
      (whole : problem.wholeTrees i j (problem.left.first i + x) (problem.right.first j + y) = true)
      (explains : matchExplains problem known forests i j (x + 1) (y + 1) = true)
      (further : Passed problem known forests i j x y walk) :
      Passed problem known forests i j (x + 1) (y + 1)
        (walk.keep (problem.left.first i + x, problem.right.first j + y))
  /-- The last subtrees are left to a walk of their own. -/
  | postpone (x y : Nat) (walk : Walk)
      (split : problem.wholeTrees i j (problem.left.first i + x) (problem.right.first j + y) =
        false)
      (explains : matchExplains problem known forests i j (x + 1) (y + 1) = true)
      (further : Passed problem known forests i j
        (problem.left.first (problem.left.first i + x) - problem.left.first i)
        (problem.right.first (problem.right.first j + y) - problem.right.first j) walk) :
      Passed problem known forests i j (x + 1) (y + 1)
        (walk.postpone (problem.left.first i + x, problem.right.first j + y))
  /-- The last node on the left is deleted. -/
  | delete (x y : Nat) (walk : Walk) (explains : deletionExplains problem forests i x y = true)
      (further : Passed problem known forests i j x y walk) :
      Passed problem known forests i j (x + 1) y (walk.delete (problem.left.first i + x))
  /-- The last node on the right is inserted, because nothing else explains the distance. -/
  | insert (x y : Nat) (walk : Walk)
      (unexplained : x ≠ 0 → matchExplains problem known forests i j x (y + 1) = false ∧
        deletionExplains problem forests i (x - 1) (y + 1) = false)
      (further : Passed problem known forests i j x y walk) :
      Passed problem known forests i j x (y + 1) (walk.insert (problem.right.first j + y))

variable {problem : Problem C} {known forests : Table C} {i j : Nat}

/-- Without any nodes there is nothing to do. -/
theorem walk_back_none (steps : Nat) :
    problem.walkBack known forests i j steps 0 0 = some Walk.start := by
  cases steps <;> simp [Problem.walkBack]

/-- Without nodes on the left, the last node on the right is inserted. -/
theorem walk_back_right (steps y : Nat) :
    problem.walkBack known forests i j (steps + 1) 0 (y + 1) =
      (problem.walkBack known forests i j steps 0 y).map fun walk =>
        walk.insert (problem.right.first j + y) := by
  simp [Problem.walkBack, ← Nat.add_assoc]

/-- Without nodes on the right, the last node on the left is deleted if that explains the
distance. -/
theorem walk_back_left (steps x : Nat) :
    problem.walkBack known forests i j (steps + 1) (x + 1) 0 =
      if deletionExplains problem forests i x 0 then
        (problem.walkBack known forests i j steps x 0).map fun walk =>
          walk.delete (problem.left.first i + x)
      else none := by
  simp [Problem.walkBack, deletionExplains, ← Nat.add_assoc]
  -- What is left differs only in how the same test is decided.
  congr

/-- Otherwise the possibilities are tried in order. -/
theorem walk_back_both (steps x y : Nat) :
    problem.walkBack known forests i j (steps + 1) (x + 1) (y + 1) =
      if matchExplains problem known forests i j (x + 1) (y + 1) then
        if problem.wholeTrees i j (problem.left.first i + x) (problem.right.first j + y) then
          (problem.walkBack known forests i j steps x y).map fun walk =>
            walk.keep (problem.left.first i + x, problem.right.first j + y)
        else
          (problem.walkBack known forests i j steps
            (problem.left.first (problem.left.first i + x) - problem.left.first i)
            (problem.right.first (problem.right.first j + y) - problem.right.first j)).map
              fun walk => walk.postpone (problem.left.first i + x, problem.right.first j + y)
      else if deletionExplains problem forests i x (y + 1) then
        (problem.walkBack known forests i j steps x (y + 1)).map fun walk =>
          walk.delete (problem.left.first i + x)
      else
        (problem.walkBack known forests i j steps (x + 1) y).map fun walk =>
          walk.insert (problem.right.first j + y) := by
  simp [Problem.walkBack, deletionExplains, matchExplains, ← Nat.add_assoc]
  congr

/-- A first step that keeps two tops or leaves two subtrees goes on as the rest of the walk does. -/
theorem passed_of_match {steps x y : Nat} {walk : Walk}
    (rest : ∀ row column further, problem.walkBack known forests i j steps row column =
      some further → Passed problem known forests i j row column further)
    (matched : matchExplains problem known forests i j (x + 1) (y + 1) = true)
    (found : problem.walkBack known forests i j (steps + 1) (x + 1) (y + 1) = some walk) :
    Passed problem known forests i j (x + 1) (y + 1) walk := by
  rw [walk_back_both, if_pos matched] at found
  cases whole : problem.wholeTrees i j (problem.left.first i + x) (problem.right.first j + y) with
  | true =>
    rw [if_pos whole] at found
    obtain ⟨further, foundFurther, rfl⟩ := Option.map_eq_some_iff.mp found
    exact Passed.keep x y further whole matched (rest x y further foundFurther)
  | false =>
    rw [if_neg (Bool.not_eq_true _ ▸ whole)] at found
    obtain ⟨further, foundFurther, rfl⟩ := Option.map_eq_some_iff.mp found
    exact Passed.postpone x y further whole matched (rest _ _ further foundFurther)

/-- A first step that deletes or inserts a node goes on as the rest of the walk does. -/
theorem passed_of_no_match {steps x y : Nat} {walk : Walk}
    (rest : ∀ row column further, problem.walkBack known forests i j steps row column =
      some further → Passed problem known forests i j row column further)
    (unmatched : matchExplains problem known forests i j (x + 1) (y + 1) = false)
    (found : problem.walkBack known forests i j (steps + 1) (x + 1) (y + 1) = some walk) :
    Passed problem known forests i j (x + 1) (y + 1) walk := by
  rw [walk_back_both, if_neg (Bool.not_eq_true _ ▸ unmatched)] at found
  cases deleted : deletionExplains problem forests i x (y + 1) with
  | true =>
    rw [if_pos deleted] at found
    obtain ⟨further, foundFurther, rfl⟩ := Option.map_eq_some_iff.mp found
    exact Passed.delete x (y + 1) further deleted (rest x (y + 1) further foundFurther)
  | false =>
    rw [if_neg (Bool.not_eq_true _ ▸ deleted)] at found
    obtain ⟨further, foundFurther, rfl⟩ := Option.map_eq_some_iff.mp found
    apply Passed.insert (x + 1) y further ?_ (rest (x + 1) y further foundFurther)
    intro _
    exact ⟨unmatched, deleted⟩

/-- Whatever a walk returns has been found step by step.

The induction is on the number of steps, with a case for each choice of forests that have nodes
left. Every step has passed its test, and the test is kept as part of the step. -/
theorem passed_of_walk_back (steps x y : Nat) (walk : Walk)
    (found : problem.walkBack known forests i j steps x y = some walk) :
    Passed problem known forests i j x y walk := by
  induction steps generalizing x y walk with
  | zero =>
    cases x with
    | zero =>
      cases y with
      | zero =>
        obtain rfl := Option.some.inj ((walk_back_none 0).symm.trans found)
        exact Passed.start
      | succ y => simp [Problem.walkBack] at found
    | succ x => simp [Problem.walkBack] at found
  | succ steps inductionHypothesis =>
    cases x with
    | zero =>
      cases y with
      | zero =>
        obtain rfl := Option.some.inj ((walk_back_none (steps + 1)).symm.trans found)
        exact Passed.start
      | succ y =>
        rw [walk_back_right] at found
        obtain ⟨further, foundFurther, rfl⟩ := Option.map_eq_some_iff.mp found
        apply Passed.insert 0 y further ?_ (inductionHypothesis 0 y further foundFurther)
        intro some
        exact absurd rfl some
    | succ x =>
      cases y with
      | zero =>
        rw [walk_back_left] at found
        cases deleted : deletionExplains problem forests i x 0 with
        | true =>
          rw [if_pos deleted] at found
          obtain ⟨further, foundFurther, rfl⟩ := Option.map_eq_some_iff.mp found
          exact Passed.delete x 0 further deleted (inductionHypothesis x 0 further foundFurther)
        | false => simp [deleted] at found
      | succ y =>
        cases matched : matchExplains problem known forests i j (x + 1) (y + 1) with
        | true => exact passed_of_match inductionHypothesis matched found
        | false => exact passed_of_no_match inductionHypothesis matched found

section Exact

variable [AddCommGroup C] [LinearOrder C] [CostScale.Exact C]

/-- A walk that has as many steps as there are nodes comes to an end.

Each step passes at least one node, so the number of steps suffices. A step could fail only when no
right nodes are left and deleting does not explain the entry; but there the entry has been computed
by deleting. -/
theorem exists_walk (nested : problem.Nested) (leftInside : i < problem.left.size)
    (rightInside : j < problem.right.size) (steps x y : Nat) (enough : x + y ≤ steps)
    (inRows : problem.left.first i + x ≤ i + 1) (inColumns : problem.right.first j + y ≤ j + 1) :
    ∃ walk, problem.walkBack known (problem.forestTable known i j) i j steps x y = some walk := by
  have leftBound := nested.left.first_le i leftInside
  have rightBound := nested.right.first_le j rightInside
  induction steps generalizing x y with
  | zero =>
    obtain rfl : x = 0 := by omega
    obtain rfl : y = 0 := by omega
    exact ⟨Walk.start, walk_back_none 0⟩
  | succ steps inductionHypothesis =>
    cases x with
    | zero =>
      cases y with
      | zero => exact ⟨Walk.start, walk_back_none (steps + 1)⟩
      | succ y =>
        obtain ⟨walk, found⟩ := inductionHypothesis 0 y (by omega) (by omega) (by omega)
        simp [walk_back_right, found]
    | succ x =>
      cases y with
      | zero =>
        obtain ⟨walk, found⟩ := inductionHypothesis x 0 (by omega) (by omega) (by omega)
        have explains : deletionExplains problem (problem.forestTable known i j) i x 0 = true := by
          rw [deletionExplains, forest_table_rule nested known leftInside rightInside (by omega)
            (by omega), rule_left, CostScale.Exact.add_eq]
          exact CostScale.Exact.near_self _
        simp [walk_back_left, explains, found]
      | succ y =>
        obtain ⟨whenDeleted, foundDeleted⟩ :=
          inductionHypothesis x (y + 1) (by omega) (by omega) (by omega)
        obtain ⟨whenInserted, foundInserted⟩ :=
          inductionHypothesis (x + 1) y (by omega) (by omega) (by omega)
        obtain ⟨whenKept, foundKept⟩ := inductionHypothesis x y (by omega) (by omega) (by omega)
        have leftFirst := nested.left.first_le (problem.left.first i + x) (by omega)
        have rightFirst := nested.right.first_le (problem.right.first j + y) (by omega)
        obtain ⟨whenPostponed, foundPostponed⟩ := inductionHypothesis
          (problem.left.first (problem.left.first i + x) - problem.left.first i)
          (problem.right.first (problem.right.first j + y) - problem.right.first j)
          (by omega) (by omega) (by omega)
        rw [walk_back_both, foundDeleted, foundInserted, foundKept, foundPostponed]
        simp only [Option.map_some]
        split_ifs <;> exact ⟨_, rfl⟩

end Exact

end TreeDelta.Alignment
