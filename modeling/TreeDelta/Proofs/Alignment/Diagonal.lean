import TreeDelta.Proofs.Alignment.KeptPairs

/-!
# Alignments along the diagonal

If two trees have the same numbers and renaming any node into the one with its own number is free,
their alignment keeps every node with the one of its number. A table may hold zero in many other
places, wherever subtrees repeat, but nothing is lost by that: on the diagonal of every table the
distance is zero from the start, so is what matching the last nodes costs there, and a walk asks for
a match first. So a walk that begins on the diagonal stays on it, in its own table and in those of
the pairs of subtrees that it leaves.

All of this needs very little of the costs, and nothing of what they are far from zero. It is asked
of them here in those terms, for a part of the scale that holds zero and the unit and that sums and
smaller ones do not leave: in this part nothing is smaller than zero.
-/

namespace TreeDelta

/-- Costs that come out of zero and the unit by adding and comparing, on a scale where zero behaves
as it should among them. -/
structure CostScale.Grounded (C : Type) [CostScale C] (Sound : C → Prop) : Prop where
  zero : Sound zero
  unit : Sound unit
  add : ∀ first second, Sound first → Sound second → Sound (add first second)
  lesser : ∀ first second, Sound first → Sound second → Sound (lesser first second)
  add_zero : CostScale.add (CostScale.zero : C) CostScale.zero = CostScale.zero
  lesser_zero : ∀ cost, Sound cost → CostScale.lesser cost CostScale.zero = CostScale.zero
  near_zero : near (CostScale.zero : C) CostScale.zero = true

/-- On an exact scale with a unit that is not negative, the costs that are not negative will do. -/
theorem CostScale.grounded_of_exact {C : Type} [AddCommGroup C] [LinearOrder C]
    [IsOrderedAddMonoid C] [CostScale C] [Exact C] (unit : 0 ≤ (unit : C)) :
    Grounded C (0 ≤ ·) where
  zero := (Exact.zero_eq (C := C)).ge
  unit := unit
  add first second firstSound secondSound := by
    rw [Exact.add_eq]
    exact add_nonneg firstSound secondSound
  lesser first second firstSound secondSound := by
    rw [Exact.lesser_eq]
    exact le_min firstSound secondSound
  add_zero := by rw [Exact.add_eq, Exact.zero_eq, add_zero]
  lesser_zero cost sound := by
    rw [Exact.lesser_eq, Exact.zero_eq]
    exact min_eq_right sound
  near_zero := Exact.near_self _

namespace Alignment

open CostScale (Grounded)

variable {C : Type} [CostScale C] {Sound : C → Prop} {problem : Problem C} {known : Table C}
  {i j : Nat}

/-- Whether two trees have the same numbers, with nodes of the same number renamed for nothing and
all costs of operations in a part of the scale. -/
structure SelfLike (Sound : C → Prop) (problem : Problem C) : Prop where
  size : problem.left.size = problem.right.size
  first : ∀ index, problem.left.first index = problem.right.first index
  free : ∀ index, problem.rename index index = CostScale.zero
  rename : ∀ index other, Sound (problem.rename index other)
  delete : ∀ index, Sound (problem.delete index)
  insert : ∀ index, Sound (problem.insert index)

/-- Whether a table holds zero on its diagonal and costs of a part of the scale elsewhere. -/
structure Settled (Sound : C → Prop) (problem : Problem C) (table : Table C) : Prop where
  shaped : table.Shaped problem.left.size problem.right.size
  sound : ∀ row column, column < problem.right.size → Sound (Problem.look table row column)
  diagonal : ∀ index < problem.left.size, Problem.look table index index = CostScale.zero

/-! ### Tables of forest distances -/

/-- The rule for forests does not leave the part of the scale. -/
theorem rule_sound (grounded : Grounded C Sound) (nested : problem.Nested)
    (alike : SelfLike Sound problem) (settled : Settled Sound problem known)
    (leftInside : i < problem.left.size) (rightInside : j < problem.right.size)
    (forest : Nat → Nat → C) (x y : Nat) (inRows : problem.left.first i + x ≤ i + 1)
    (inColumns : problem.right.first j + y ≤ j + 1)
    (smaller : ∀ row column, row + column < x + y → row ≤ x → column ≤ y →
      Sound (forest row column)) :
    Sound (problem.forestRule (Problem.look known) i j forest x y) := by
  unfold Problem.forestRule
  split
  · next noRows =>
    split
    · exact grounded.zero
    · next someColumns =>
      exact grounded.add _ _ (smaller 0 (y - 1) (by omega) (by omega) (by omega)) (alike.insert _)
  · next someRows =>
    split
    · next noColumns =>
      exact grounded.add _ _ (smaller (x - 1) 0 (by omega) (by omega) (by omega)) (alike.delete _)
    · next someColumns =>
      have leftFirst := nested.left.first_le (problem.left.first i + x - 1) (by omega)
      have rightFirst := nested.right.first_le (problem.right.first j + y - 1) (by omega)
      have matching : Sound (problem.matching (Problem.look known) i j forest x y) := by
        unfold Problem.matching
        dsimp only
        split
        · exact grounded.add _ _ (smaller (x - 1) (y - 1) (by omega) (by omega) (by omega))
            (alike.rename _ _)
        · exact grounded.add _ _ (smaller _ _ (by omega) (by omega) (by omega))
            (settled.sound _ _ (by omega))
      exact grounded.lesser _ _ (grounded.lesser _ _
        (grounded.add _ _ (smaller (x - 1) y (by omega) (by omega) (by omega)) (alike.delete _))
        (grounded.add _ _ (smaller x (y - 1) (by omega) (by omega) (by omega)) (alike.insert _)))
        matching

/-- The entries of a table of forest distances stay in the part of the scale. -/
theorem forest_sound (grounded : Grounded C Sound) (nested : problem.Nested)
    (alike : SelfLike Sound problem) (settled : Settled Sound problem known)
    (leftInside : i < problem.left.size) (rightInside : j < problem.right.size) (x y : Nat)
    (inRows : problem.left.first i + x ≤ i + 1) (inColumns : problem.right.first j + y ≤ j + 1) :
    Sound (Problem.look (problem.forestTable known i j) x y) := by
  have leftBound := nested.left.first_le i leftInside
  have rightBound := nested.right.first_le j rightInside
  induction size : x + y using Nat.strong_induction_on generalizing x y with
  | _ size inductionHypothesis =>
    rw [forest_table_rule nested known leftInside rightInside (by omega) (by omega)]
    apply rule_sound grounded nested alike settled leftInside rightInside _ x y inRows inColumns
    intro row column less rows columns
    exact inductionHypothesis (row + column) (by omega) row column (by omega) (by omega) rfl

/-- Matching costs nothing on the diagonal, if smaller forests there have no distance. -/
theorem matching_diagonal (grounded : Grounded C Sound) (alike : SelfLike Sound problem)
    (settled : Settled Sound problem known) (same : problem.left.first i = problem.left.first j)
    (forest : Nat → Nat → C) (x : Nat) (inside : problem.left.first i + x < problem.left.size)
    (here : forest x x = CostScale.zero)
    (front : forest (problem.left.first (problem.left.first i + x) - problem.left.first i)
      (problem.left.first (problem.left.first i + x) - problem.left.first i) = CostScale.zero) :
    problem.matching (Problem.look known) i j forest (x + 1) (x + 1) = CostScale.zero := by
  simp only [Problem.matching, ← Nat.add_assoc, Nat.add_sub_cancel, ← alike.first, ← same]
  split
  · rw [here, alike.free, grounded.add_zero]
  · rw [front, settled.diagonal _ inside, grounded.add_zero]

/-- Forests with the same numbers have no distance. -/
theorem forest_diagonal (grounded : Grounded C Sound) (nested : problem.Nested)
    (alike : SelfLike Sound problem) (settled : Settled Sound problem known)
    (leftInside : i < problem.left.size) (rightInside : j < problem.right.size)
    (same : problem.left.first i = problem.left.first j) (x : Nat)
    (inRows : problem.left.first i + x ≤ i + 1) (inColumns : problem.left.first j + x ≤ j + 1) :
    Problem.look (problem.forestTable known i j) x x = CostScale.zero := by
  have leftBound := nested.left.first_le i leftInside
  have rightBound := nested.right.first_le j rightInside
  have first := alike.first j
  induction x using Nat.strong_induction_on with
  | _ x inductionHypothesis =>
    rw [forest_table_rule nested known leftInside rightInside (by omega) (by omega)]
    cases x with
    | zero => simp [Problem.forestRule]
    | succ x =>
      have above := forest_sound grounded nested alike settled leftInside rightInside x (x + 1)
        (by omega) (by omega)
      have toTheLeft := forest_sound grounded nested alike settled leftInside rightInside (x + 1) x
        (by omega) (by omega)
      have begins := nested.left.first_le (problem.left.first i + x) (by omega)
      have matching := matching_diagonal grounded alike settled same
        (Problem.look (problem.forestTable known i j)) x (by omega)
        (inductionHypothesis x (by omega) (by omega) (by omega))
        (inductionHypothesis _ (by omega) (by omega) (by omega))
      -- Matching is one of the three that the rule compares, and the others are not below zero.
      simp only [Problem.forestRule, Nat.add_eq_zero_iff, one_ne_zero, and_false, ↓reduceIte,
        Nat.add_sub_cancel, matching]
      exact grounded.lesser_zero _ (grounded.lesser _ _ (grounded.add _ _ above (alike.delete _))
        (grounded.add _ _ toTheLeft (alike.insert _)))

/-! ### The table of distances -/

/-- Before any pair of key roots is taken, a table holds zero everywhere. -/
theorem constant_settled (grounded : Grounded C Sound) (problem : Problem C) :
    Settled Sound problem
      (Table.constant problem.left.size problem.right.size CostScale.zero) := by
  have zero (row column : Nat) : Problem.look
      (Table.constant problem.left.size problem.right.size (CostScale.zero : C)) row column =
        CostScale.zero := by
    simp only [Problem.look, Table.entry, Table.constant, Array.getD_eq_getD_getElem?,
      List.getElem?_toArray]
    cases found : (List.replicate (problem.left.size * problem.right.size)
        (CostScale.zero : C))[row * problem.right.size + column]? with
    | none => rfl
    | some cost => exact (List.mem_replicate.mp (List.mem_of_getElem? found)).2
  refine ⟨Table.constant_shaped _ _ _, fun row column _ => ?_, fun index _ => zero index index⟩
  rw [zero]
  exact grounded.zero

/-- Taking a pair of key roots keeps zero on the diagonal. -/
theorem record_settled (grounded : Grounded C Sound) (nested : problem.Nested)
    (alike : SelfLike Sound problem) {table : Table C} (settled : Settled Sound problem table)
    (leftInside : i < problem.left.size) (rightInside : j < problem.right.size) :
    Settled Sound problem (problem.record table (i, j)) := by
  have entry := record_entry settled.shaped leftInside rightInside
  refine ⟨?_, fun row column inColumns => ?_, fun index inRows => ?_⟩
  · rw [record_eq]
    exact Table.set_all_shaped settled.shaped _ _
  · rw [entry row column inColumns]
    split
    · next covers =>
      obtain ⟨leftBounds, rightBounds⟩ := (mem_covered_pairs i j row column).mp covers
      exact forest_sound grounded nested alike settled leftInside rightInside _ _ (by omega)
        (by omega)
    · exact settled.sound row column inColumns
  · rw [entry index index (alike.size ▸ inRows)]
    split
    · next covers =>
      obtain ⟨leftBounds, rightBounds⟩ := (mem_covered_pairs i j index index).mp covers
      -- A pair of key roots that covers a place on the diagonal has subtrees that begin together.
      rw [← alike.first, ← alike.first] at rightBounds
      have same : problem.left.first i = problem.left.first j :=
        leftBounds.2.2.symm.trans rightBounds.2.2
      rw [← alike.first, ← same]
      exact forest_diagonal grounded nested alike settled leftInside rightInside same _ (by omega)
        (by omega)
    · exact settled.diagonal index inRows

/-- The table of distances holds zero on its diagonal. -/
theorem distances_settled (grounded : Grounded C Sound) (nested : problem.Nested)
    (alike : SelfLike Sound problem) : Settled Sound problem problem.distances := by
  have run (rest : List (Nat × Nat)) (table : Table C) (taken : ∀ roots ∈ rest,
      roots ∈ problem.keyRootPairs) (settled : Settled Sound problem table) :
      Settled Sound problem (rest.foldl problem.record table) := by
    induction rest generalizing table with
    | nil => exact settled
    | cons roots rest inductionHypothesis =>
      obtain ⟨i, j⟩ := roots
      obtain ⟨isLeft, isRight⟩ := (mem_key_root_pairs problem i j).mp (taken _ List.mem_cons_self)
      exact inductionHypothesis _ (fun other later => taken other (List.mem_cons_of_mem _ later))
        (record_settled grounded nested alike settled ((Numbering.mem_key_roots i).mp isLeft).1
          ((Numbering.mem_key_roots j).mp isRight).1)
  exact run _ _ (fun _ member => member) (constant_settled grounded problem)

/-! ### Walks -/

/-- Whether an outcome keeps every node with the one of its own number. -/
structure Outcome.Diagonal (outcome : Outcome) : Prop where
  kept : ∀ pair ∈ outcome.kept, pair.2 = pair.1
  deleted : outcome.deleted = []
  inserted : outcome.inserted = []

/-- Whether a walk has kept to the diagonal. -/
structure Walk.Diagonal (walk : Walk) : Prop where
  outcome : walk.outcome.Diagonal
  pending : ∀ pair ∈ walk.pending, pair.2 = pair.1

/-- A walk that begins on the diagonal comes to an end and stays on it.

On the diagonal all distances are zero and matching costs nothing, so matching always explains the
entry and no step deletes or inserts. The induction is on the number of steps. -/
theorem walk_diagonal (grounded : Grounded C Sound) (nested : problem.Nested)
    (alike : SelfLike Sound problem) (settled : Settled Sound problem known)
    (inside : i < problem.left.size) (steps x : Nat) (enough : x ≤ steps)
    (inRows : problem.left.first i + x ≤ i + 1) :
    ∃ walk, problem.walkBack known (problem.forestTable known i i) i i steps x x = some walk ∧
      walk.Diagonal := by
  have rightInside : i < problem.right.size := alike.size ▸ inside
  induction steps generalizing x with
  | zero =>
    obtain rfl : x = 0 := by omega
    exact ⟨Walk.start, walk_back_none 0, ⟨by simp [Walk.start, Outcome.empty], rfl, rfl⟩,
      by simp [Walk.start]⟩
  | succ steps inductionHypothesis =>
    cases x with
    | zero =>
      exact ⟨Walk.start, walk_back_none (steps + 1),
        ⟨by simp [Walk.start, Outcome.empty], rfl, rfl⟩, by simp [Walk.start]⟩
    | succ x =>
      have zero (x : Nat) (inRows : problem.left.first i + x ≤ i + 1) :=
        forest_diagonal grounded nested alike settled inside rightInside rfl x inRows inRows
      have begins := nested.left.first_le (problem.left.first i + x) (by omega)
      have matched : matchExplains problem known (problem.forestTable known i i) i i (x + 1)
          (x + 1) = true := by
        rw [matchExplains, zero (x + 1) inRows, matching_diagonal grounded alike settled rfl _ x
          (by omega) (zero x (by omega)) (zero _ (by omega))]
        exact grounded.near_zero
      rw [walk_back_both, if_pos matched, ← alike.first, ← alike.first]
      -- Either the last nodes are kept, or their subtrees are left for later. Both ways the walk
      -- goes on from a place on the diagonal.
      split
      · obtain ⟨walk, found, diagonal⟩ := inductionHypothesis x (by omega) (by omega)
        rw [found]
        refine ⟨_, rfl, ⟨?_, diagonal.outcome.deleted, diagonal.outcome.inserted⟩,
          diagonal.pending⟩
        exact List.forall_mem_cons.mpr ⟨rfl, diagonal.outcome.kept⟩
      · obtain ⟨walk, found, diagonal⟩ := inductionHypothesis
          (problem.left.first (problem.left.first i + x) - problem.left.first i) (by omega)
          (by omega)
        rw [found]
        exact ⟨_, rfl, diagonal.outcome, List.forall_mem_cons.mpr ⟨rfl, diagonal.pending⟩⟩

/-- The outcome for the subtrees of one number keeps to the diagonal.

The walk for the subtrees themselves stays on the diagonal and leaves only smaller pairs, also on
the diagonal. So the induction on the rounds reaches all of them. -/
theorem outcome_diagonal (grounded : Grounded C Sound) (nested : problem.Nested)
    (alike : SelfLike Sound problem) (settled : Settled Sound problem known) (rounds : Nat)
    (inside : i < problem.left.size) (enough : extent problem (i, i) < rounds) :
    ∃ outcome, problem.outcomeBetween known rounds (i, i) = some outcome ∧ outcome.Diagonal := by
  induction rounds generalizing i with
  | zero => omega
  | succ rounds inductionHypothesis =>
    have rightInside : i < problem.right.size := alike.size ▸ inside
    have leftBound := nested.left.first_le i inside
    have rightBound := nested.right.first_le i rightInside
    obtain ⟨walk, foundWalk, diagonal⟩ :
        ∃ walk, problem.walkFrom known i i = some walk ∧ walk.Diagonal := by
      rw [Problem.walkFrom, ← alike.first]
      exact walk_diagonal grounded nested alike settled inside _ _ (by omega) (by omega)
    have passed := passed_of_walk_from foundWalk
    have smaller := pending_smaller nested ⟨inside, rightInside⟩ passed (by omega) (by omega)
    obtain ⟨further, foundFurther, furtherDiagonal⟩ := exists_results
      (problem.outcomeBetween known rounds) Outcome.Diagonal walk.pending fun pair member => by
        obtain ⟨⟨pairInside, _⟩, less⟩ := smaller pair member
        have onDiagonal := diagonal.pending pair member
        obtain ⟨index, other⟩ := pair
        obtain rfl : other = index := onDiagonal
        exact inductionHypothesis pairInside (by omega)
    refine ⟨walk.complete further, by
      simp [Problem.outcomeBetween, foundWalk, foundFurther, Walk.complete], ?_⟩
    rw [complete_parts, diagonal.outcome.deleted, diagonal.outcome.inserted]
    refine ⟨?_, ?_, ?_⟩
    · simp only [List.mem_append, List.mem_flatMap]
      rintro pair (kept | ⟨outcome, member, kept⟩)
      · exact diagonal.outcome.kept pair kept
      · exact (furtherDiagonal outcome member).kept pair kept
    · exact List.flatMap_eq_nil_iff.mpr fun outcome member =>
        (furtherDiagonal outcome member).deleted
    · exact List.flatMap_eq_nil_iff.mpr fun outcome member =>
        (furtherDiagonal outcome member).inserted

/-- Pairs of numbers with themselves are put in ascending order. -/
theorem sorted_diagonal {pairs : List (Nat × Nat)} {count : Nat}
    (diagonal : ∀ pair ∈ pairs, pair.2 = pair.1)
    (once : (pairs.map Prod.fst).Perm (List.range count)) :
    pairs.mergeSort pairNotAfter = (List.range count).map fun index => (index, index) := by
  have doubled : pairs = (pairs.map Prod.fst).map fun index => (index, index) := by
    rw [List.map_map]
    refine (List.map_id pairs).symm.trans (List.map_congr_left fun pair member => ?_)
    exact Prod.ext rfl (diagonal pair member)
  have same : (pairs.mergeSort pairNotAfter).Perm
      ((List.range count).map fun index => (index, index)) := by
    refine (List.mergeSort_perm pairs pairNotAfter).trans ?_
    rw [doubled]
    exact once.map _
  have ascending : ((List.range count).map fun index => (index, index)).Pairwise
      fun early late => pairNotAfter early late = true := by
    rw [List.pairwise_map]
    refine List.pairwise_lt_range.imp fun before => ?_
    rw [pair_not_after_iff]
    exact .inl before
  refine List.Perm.eq_of_pairwise ?_ (sorted_pairs pairs) ascending same
  rintro ⟨first, firstRight⟩ ⟨second, secondRight⟩ _ _ notAfter notBefore
  rw [pair_not_after_iff] at notAfter notBefore
  dsimp only at notAfter notBefore
  exact Prod.ext (by dsimp only; omega) (by dsimp only; omega)

/-- The alignment of two trees with the same numbers, in which nodes of the same number are renamed
for nothing, keeps every node with the one of its number. -/
theorem correspondence_diagonal (grounded : Grounded C Sound) (cost : CostModel C)
    (left right : SyntaxTree) (alike : SelfLike Sound (Problem.ofTrees left right cost)) :
    correspondence cost left right = (List.range left.size).map fun index => (index, index) := by
  have nested := nested_of_trees left right cost
  have inside := last_pair_inside left right cost
  have nodes := extent_of_last_pair left right cost
  have leftSize : (Problem.ofTrees left right cost).left.size = left.size :=
    Numbering.size_of_tree left
  have rightSize : (Problem.ofTrees left right cost).right.size = right.size :=
    Numbering.size_of_tree right
  have sizes : left.size = right.size := leftSize.symm.trans (alike.size.trans rightSize)
  have last := left.last_inside
  rw [← sizes] at inside nodes
  have enough : extent (Problem.ofTrees left right cost) (left.size - 1, left.size - 1) <
      left.size + right.size := by
    omega
  obtain ⟨outcome, found, diagonal⟩ := outcome_diagonal grounded nested alike
    (distances_settled grounded nested alike) (left.size + right.size) inside.1 enough
  have accounts := outcome_accounts nested _ _ outcome inside found
  have leftFirst : (Problem.ofTrees left right cost).left.first (left.size - 1) = 0 :=
    Numbering.first_of_last left
  have once := accounts.left_once
  rw [leftFirst, Nat.sub_add_cancel (by omega), diagonal.deleted, List.append_nil,
    ← Finset.range_eq_Ico, Finset.range_val, ← Multiset.coe_range, Multiset.coe_eq_coe] at once
  have outcomeFound : (Problem.ofTrees left right cost).outcome? = some outcome := by
    rw [outcome_of_trees, ← sizes]
    exact sizes ▸ found
  simp only [correspondence, outcomeFound]
  exact sorted_diagonal diagonal.kept once

end Alignment

end TreeDelta
