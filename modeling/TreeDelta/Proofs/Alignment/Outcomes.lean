import TreeDelta.Proofs.Alignment.Accounts

/-!
# Outcomes of walks

A walk through the forests of two subtrees accounts for all of their nodes, up to the pairs of
smaller subtrees that it leaves. Those are left to walks of their own, so the outcome for a pair of
subtrees accounts for all of them, by induction on the number of rounds. The number of nodes of both
subtrees falls from round to round, so as many rounds as there are nodes suffice on an exact scale.
-/

namespace TreeDelta.Alignment

variable {C : Type}

/-- The number of nodes of two subtrees, less two. -/
def extent (problem : Problem C) (pair : Nat × Nat) : Nat :=
  (pair.1 - problem.left.first pair.1) + (pair.2 - problem.right.first pair.2)

/-- The numbers of a pair belong to nodes of the two trees. -/
def Inside (problem : Problem C) (pair : Nat × Nat) : Prop :=
  pair.1 < problem.left.size ∧ pair.2 < problem.right.size

variable [CostScale C] {problem : Problem C} {known forests : Table C} {i j : Nat}

/-- Every pair that a walk leaves is a pair of subtrees inside the two forests, of which one does
not begin where its forest begins. -/
theorem passed_pending (nested : problem.Nested) (inside : Inside problem (i, j)) {x y : Nat}
    {walk : Walk} (passed : Passed problem known forests i j x y walk)
    (inRows : problem.left.first i + x ≤ i + 1) (inColumns : problem.right.first j + y ≤ j + 1) :
    ∀ pair ∈ walk.pending,
      (problem.left.first i ≤ pair.1 ∧ pair.1 ≤ i) ∧
      (problem.right.first j ≤ pair.2 ∧ pair.2 ≤ j) ∧
      problem.wholeTrees i j pair.1 pair.2 = false := by
  have leftInside : i < problem.left.size := inside.1
  have rightInside : j < problem.right.size := inside.2
  induction passed with
  | start => simp [Walk.start]
  | keep x y walk whole explains further inductionHypothesis =>
    exact inductionHypothesis (by omega) (by omega)
  | postpone x y walk split explains further inductionHypothesis =>
    have leftFirst := nested.left.first_le (problem.left.first i + x) (by omega)
    have rightFirst := nested.right.first_le (problem.right.first j + y) (by omega)
    intro pair member
    rcases List.mem_cons.mp member with rfl | earlier
    · exact ⟨⟨by omega, by omega⟩, ⟨by omega, by omega⟩, split⟩
    · exact inductionHypothesis (by omega) (by omega) pair earlier
  | delete x y walk explains further inductionHypothesis =>
    exact inductionHypothesis (by omega) (by omega)
  | insert x y walk unexplained further inductionHypothesis =>
    exact inductionHypothesis (by omega) (by omega)

omit [CostScale C] in
/-- A pair of subtrees inside two others is smaller if one of them does not begin where the other
does. -/
theorem split_smaller (nested : problem.Nested) (inside : Inside problem (i, j)) {pair : Nat × Nat}
    (leftWithin : problem.left.first i ≤ pair.1 ∧ pair.1 ≤ i)
    (rightWithin : problem.right.first j ≤ pair.2 ∧ pair.2 ≤ j)
    (split : problem.wholeTrees i j pair.1 pair.2 = false) :
    Inside problem pair ∧ extent problem pair < extent problem (i, j) := by
  obtain ⟨leftInside, rightInside⟩ := inside
  have leftFirst := nested.left.first_mono i leftInside pair.1 leftWithin.1 leftWithin.2
  have rightFirst := nested.right.first_mono j rightInside pair.2 rightWithin.1 rightWithin.2
  have different : ¬(problem.left.first pair.1 = problem.left.first i ∧
      problem.right.first pair.2 = problem.right.first j) := by
    rw [← whole_trees_iff, split]
    exact Bool.false_ne_true
  have leftBound := nested.left.first_le pair.1 (by omega)
  have rightBound := nested.right.first_le pair.2 (by omega)
  refine ⟨⟨by omega, by omega⟩, ?_⟩
  simp only [extent]
  omega

/-- Every pair that a walk leaves is a pair of smaller subtrees. -/
theorem pending_smaller (nested : problem.Nested) (inside : Inside problem (i, j)) {x y : Nat}
    {walk : Walk} (passed : Passed problem known forests i j x y walk)
    (inRows : problem.left.first i + x ≤ i + 1) (inColumns : problem.right.first j + y ≤ j + 1) :
    ∀ pair ∈ walk.pending, Inside problem pair ∧ extent problem pair < extent problem (i, j) := by
  intro pair member
  obtain ⟨leftWithin, rightWithin, split⟩ :=
    passed_pending nested inside passed inRows inColumns pair member
  exact split_smaller nested inside leftWithin rightWithin split

/-- A walk accounts for the forests that it passes.

The induction follows the walk. A step puts the last node of a forest on top of what the rest of the
walk accounts for, or the two last subtrees behind it; the runs of numbers that are passed grow
accordingly. -/
theorem passed_accounts (nested : problem.Nested) (inside : Inside problem (i, j)) {x y : Nat}
    {walk : Walk} (passed : Passed problem known forests i j x y walk)
    (inRows : problem.left.first i + x ≤ i + 1) (inColumns : problem.right.first j + y ≤ j + 1) :
    WalkAccounts problem (Finset.Ico (problem.left.first i) (problem.left.first i + x))
      (Finset.Ico (problem.right.first j) (problem.right.first j + y)) walk := by
  have leftInside : i < problem.left.size := inside.1
  have rightInside : j < problem.right.size := inside.2
  induction passed with
  | start =>
    simp only [Nat.add_zero, Finset.Ico_self]
    exact WalkAccounts.start
  | keep x y walk whole explains further inductionHypothesis =>
    obtain ⟨leftWhole, rightWhole⟩ := (whole_trees_iff problem i j _ _).mp whole
    rw [← Nat.add_assoc, ← Nat.add_assoc,
      ← Finset.insert_Ico_right_eq_Ico_add_one (Nat.le_add_right _ _),
      ← Finset.insert_Ico_right_eq_Ico_add_one (Nat.le_add_right _ _)]
    apply (inductionHypothesis (by omega) (by omega)).keep
    · intro index member
      rw [Numbering.Over, leftWhole]
      exact Finset.mem_Ico.mp member
    · intro index member
      rw [Numbering.Over, rightWhole]
      exact Finset.mem_Ico.mp member
  | postpone x y walk split explains further inductionHypothesis =>
    have leftAfter := nested.left.first_mono i leftInside (problem.left.first i + x)
      (by omega) (by omega)
    have rightAfter := nested.right.first_mono j rightInside (problem.right.first j + y)
      (by omega) (by omega)
    have leftFirst := nested.left.first_le (problem.left.first i + x) (by omega)
    have rightFirst := nested.right.first_le (problem.right.first j + y) (by omega)
    have front := inductionHypothesis (by omega) (by omega)
    rw [Nat.add_sub_cancel' leftAfter, Nat.add_sub_cancel' rightAfter] at front
    have both := front.postpone (problem.left.first i + x, problem.right.first j + y)
      (nested.left.precedes (problem.left.first i) (problem.left.first i + x) (by omega))
      (nested.right.precedes (problem.right.first j) (problem.right.first j + y) (by omega))
    rwa [Finset.Ico_union_Ico_eq_Ico leftAfter (by omega),
      Finset.Ico_union_Ico_eq_Ico rightAfter (by omega)] at both
  | delete x y walk explains further inductionHypothesis =>
    rw [← Nat.add_assoc, ← Finset.insert_Ico_right_eq_Ico_add_one (Nat.le_add_right _ _)]
    exact (inductionHypothesis (by omega) (by omega)).delete _ (by simp)
  | insert x y walk unexplained further inductionHypothesis =>
    rw [← Nat.add_assoc, ← Finset.insert_Ico_right_eq_Ico_add_one (Nat.le_add_right _ _)]
    exact (inductionHypothesis (by omega) (by omega)).insert _ (by simp)

/-- The results of a list of calls that may fail are those of each call. -/
theorem map_results {α β : Type} (call : α → Option β) (members : List α) (results : List β)
    (found : members.mapM call = some results) :
    List.Forall₂ (fun member result => call member = some result) members results := by
  induction members generalizing results with
  | nil =>
    obtain rfl : [] = results := by simpa using found
    exact List.Forall₂.nil
  | cons member rest inductionHypothesis =>
    simp only [List.mapM_cons, Option.bind_eq_bind, Option.bind_eq_some_iff, Option.pure_def,
      Option.some.injEq] at found
    obtain ⟨first, foundFirst, others, foundOthers, rfl⟩ := found
    exact List.Forall₂.cons foundFirst (inductionHypothesis others foundOthers)

/-- A list of calls that may fail has results of a kind if each of them has one. -/
theorem exists_results {α β : Type} (call : α → Option β) (Holds : β → Prop)
    (members : List α)
    (each : ∀ member ∈ members, ∃ result, call member = some result ∧ Holds result) :
    ∃ results, members.mapM call = some results ∧ ∀ result ∈ results, Holds result := by
  induction members with
  | nil => exact ⟨[], rfl, by simp⟩
  | cons member rest inductionHypothesis =>
    obtain ⟨first, foundFirst, holds⟩ := each member List.mem_cons_self
    obtain ⟨others, foundOthers, othersHold⟩ :=
      inductionHypothesis fun other later => each other (List.mem_cons_of_mem member later)
    exact ⟨first :: others, by simp [foundFirst, foundOthers],
      List.forall_mem_cons.mpr ⟨holds, othersHold⟩⟩

/-- The walk of a round passes both subtrees. -/
theorem passed_of_walk_from {walk : Walk} (found : problem.walkFrom known i j = some walk) :
    Passed problem known (problem.forestTable known i j) i j (i - problem.left.first i + 1)
      (j - problem.right.first j + 1) walk :=
  passed_of_walk_back _ _ _ walk found

/-- What holds of a complete walk whenever it holds of the outcomes for the pairs that the walk
leaves, holds of every outcome. -/
theorem outcome_induction (nested : problem.Nested) {Holds : Nat × Nat → Outcome → Prop}
    (step : ∀ i j walk further, Inside problem (i, j) →
      Passed problem known (problem.forestTable known i j) i j (i - problem.left.first i + 1)
        (j - problem.right.first j + 1) walk →
      List.Forall₂ Holds walk.pending further → Holds (i, j) (walk.complete further))
    (rounds : Nat) (pair : Nat × Nat) (outcome : Outcome) (inside : Inside problem pair)
    (found : problem.outcomeBetween known rounds pair = some outcome) : Holds pair outcome := by
  induction rounds generalizing pair outcome with
  | zero => simp [Problem.outcomeBetween] at found
  | succ rounds inductionHypothesis =>
    obtain ⟨i, j⟩ := pair
    have leftBound : problem.left.first i ≤ i := nested.left.first_le i inside.1
    have rightBound : problem.right.first j ≤ j := nested.right.first_le j inside.2
    simp only [Problem.outcomeBetween, Option.bind_eq_bind, Option.bind_eq_some_iff,
      Option.pure_def, Option.some.injEq] at found
    obtain ⟨walk, foundWalk, further, foundFurther, rfl⟩ := found
    have passed := passed_of_walk_from foundWalk
    have smaller := pending_smaller nested inside passed (by omega) (by omega)
    apply step i j walk further inside passed
    have results := map_results _ _ _ foundFurther
    exact List.forall₂_iff_get.mpr ⟨results.length_eq, fun index first second =>
      inductionHypothesis _ _ (smaller _ (List.get_mem _ _)).1 (results.get first second)⟩

/-- The outcome for two subtrees accounts for all of their nodes. -/
theorem outcome_accounts (nested : problem.Nested) (rounds : Nat) (pair : Nat × Nat)
    (outcome : Outcome) (inside : Inside problem pair)
    (found : problem.outcomeBetween known rounds pair = some outcome) :
    AccountsForPair problem pair outcome := by
  refine outcome_induction nested ?_ rounds pair outcome inside found
  intro i j walk further inside passed accounts
  have leftBound : problem.left.first i ≤ i := nested.left.first_le i inside.1
  have rightBound : problem.right.first j ≤ j := nested.right.first_le j inside.2
  have whole := passed_accounts nested inside passed (by omega) (by omega) further accounts
  rwa [← Nat.add_assoc, ← Nat.add_assoc, Nat.add_sub_cancel' leftBound,
    Nat.add_sub_cancel' rightBound] at whole

section Exact

variable [AddCommGroup C] [LinearOrder C] [CostScale.Exact C]

/-- There is an outcome for two subtrees if there are as many rounds as nodes. -/
theorem exists_outcome (nested : problem.Nested) (rounds : Nat) (pair : Nat × Nat)
    (inside : Inside problem pair) (enough : extent problem pair < rounds) :
    ∃ outcome, problem.outcomeBetween known rounds pair = some outcome := by
  induction rounds generalizing pair with
  | zero => omega
  | succ rounds inductionHypothesis =>
    obtain ⟨i, j⟩ := pair
    have leftInside : i < problem.left.size := inside.1
    have rightInside : j < problem.right.size := inside.2
    have leftBound := nested.left.first_le i leftInside
    have rightBound := nested.right.first_le j rightInside
    obtain ⟨walk, foundWalk⟩ : ∃ walk, problem.walkFrom known i j = some walk :=
      exists_walk nested leftInside rightInside _ _ _ (Nat.le_refl _) (by omega) (by omega)
    have passed := passed_of_walk_from foundWalk
    have smaller := pending_smaller nested inside passed (by omega) (by omega)
    obtain ⟨further, foundFurther, -⟩ := exists_results (problem.outcomeBetween known rounds)
      (fun _ => True) walk.pending fun pair member => by
        obtain ⟨outcome, found⟩ := inductionHypothesis pair (smaller pair member).1
          (Nat.lt_of_lt_of_le (smaller pair member).2 (Nat.le_of_lt_succ enough))
        exact ⟨outcome, found, trivial⟩
    exact ⟨walk.complete further, by
      simp [Problem.outcomeBetween, foundWalk, foundFurther, Walk.complete]⟩

end Exact

end TreeDelta.Alignment
