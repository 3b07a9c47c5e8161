import TreeDelta.Proofs.Alignment.KeptPairs
import TreeDelta.Proofs.Alignment.Turns

/-!
# The run of the loop

The loop that walks the tables back has a next state until nothing is left to do, so it comes to an
end. On the way, what has been found, what the present walk will find, and what the pairs of
subtrees yield that this walk will leave or that lie on the stack, always make up the outcome of the
alignment. The table of distances is the finished one all the time, because filling tables again
does not change it.
-/

namespace TreeDelta.Alignment

variable {C : Type}

/-- The parts of an outcome, in no order. -/
def Outcome.parts (outcome : Outcome) : Multiset (Nat × Nat) × Multiset Nat × Multiset Nat :=
  (outcome.kept, outcome.deleted, outcome.inserted)

/-- A complete walk has the parts of all its outcomes. -/
theorem parts_of_complete (walk : Walk) (further : List Outcome) :
    (walk.complete further).parts = walk.outcome.parts + (further.map Outcome.parts).sum := by
  obtain ⟨outcome, pending⟩ := walk
  induction further generalizing outcome with
  | nil => simp [Walk.complete]
  | cons first rest inductionHypothesis =>
    have appended : (outcome.append first).parts = outcome.parts + first.parts := by
      simp [Outcome.parts, Outcome.append, ← Multiset.coe_add]
    refine (inductionHypothesis (outcome.append first)).trans ?_
    rw [appended, List.map_cons, List.sum_cons, add_assoc]

/-- It makes no difference whether a turn is taken before or after something else is found. -/
theorem parts_of_take (walk rest : Walk) (turn : Turn) :
    (walk.take turn).outcome.parts + rest.outcome.parts =
      walk.outcome.parts + (rest.take turn).outcome.parts := by
  cases turn <;>
    simp [Walk.take, Walk.keep, Walk.postpone, Walk.delete, Walk.insert, Outcome.parts,
      ← Multiset.cons_coe]

section Running

variable [CostScale C] {problem : Problem C}

/-- The outcomes for some pairs of subtrees consist of the parts. -/
def Yields (problem : Problem C) (pairs : List (Nat × Nat))
    (parts : Multiset (Nat × Nat) × Multiset Nat × Multiset Nat) : Prop :=
  ∃ outcomes, List.Forall₂ (fun pair outcome => ∃ rounds,
    problem.outcomeBetween problem.distances rounds pair = some outcome) pairs outcomes ∧
      (outcomes.map Outcome.parts).sum = parts

/-- What a pair that a turn leaves will yield counts with the pairs on the stack from then on. -/
theorem Yields.take {walk rest : Walk} (turn : Turn)
    {ahead waiting : Multiset (Nat × Nat) × Multiset Nat × Multiset Nat}
    (aheadYields : Yields problem (rest.take turn).pending ahead)
    (waitingYields : Yields problem walk.pending waiting) :
    ∃ fewer more, Yields problem rest.pending fewer ∧ Yields problem (walk.take turn).pending more ∧
      fewer + more = ahead + waiting := by
  cases turn with
  | keep pair => exact ⟨ahead, waiting, aheadYields, waitingYields, rfl⟩
  | delete i => exact ⟨ahead, waiting, aheadYields, waitingYields, rfl⟩
  | insert j => exact ⟨ahead, waiting, aheadYields, waitingYields, rfl⟩
  | postpone pair =>
    obtain ⟨outcomes, found, rfl⟩ := aheadYields
    obtain ⟨others, foundOthers, rfl⟩ := waitingYields
    obtain ⟨first, later, foundFirst, foundLater, rfl⟩ := List.forall₂_cons_left_iff.mp found
    refine ⟨_, _, ⟨later, foundLater, rfl⟩,
      ⟨first :: others, .cons foundFirst foundOthers, rfl⟩, ?_⟩
    simp only [List.map_cons, List.sum_cons]
    abel

/-- The walk that the table being walked back will still take. Without a table there is none. -/
def Ahead (problem : Problem C) : Option (Visit C) → Walk → Prop
  | none, walk => walk = Walk.start
  | some visit, walk => ∃ steps, problem.walkBack problem.distances visit.forests visit.i visit.j
      steps visit.x visit.y = some walk

/-- The table that is being walked back belongs to two subtrees, and the forests that are left are
among theirs. -/
structure Standing (problem : Problem C) (visit : Visit C) : Prop where
  inside : Inside problem (visit.i, visit.j)
  forests : visit.forests = problem.forestTable problem.distances visit.i visit.j
  inRows : problem.left.first visit.i + visit.x ≤ visit.i + 1
  inColumns : problem.right.first visit.j + visit.y ≤ visit.j + 1

/-- The loop is on its way to an outcome: the table of distances is the finished one, and the
outcome consists of what has been found, what the present walk will find, and what the pairs of
subtrees yield that this walk will leave or that lie on the stack. -/
structure Underway (problem : Problem C) (whole : Outcome) (state : Backtrace C) : Prop where
  known : state.known = problem.distances
  pending : ∀ pair ∈ state.walk.pending, Inside problem pair
  standing : ∀ visit, state.visit = some visit → Standing problem visit
  leads : ∃ walk ahead waiting, Ahead problem state.visit walk ∧ Yields problem walk.pending ahead ∧
    Yields problem state.walk.pending waiting ∧
    state.walk.outcome.parts + walk.outcome.parts + (ahead + waiting) = whole.parts

/-- The loop has a next state and remains on its way to an outcome. -/
def GoesOn (problem : Problem C) (whole : Outcome) (state : Backtrace C) : Prop :=
  ∃ next, problem.step? state = some next ∧ Advances problem state next ∧
    Underway problem whole next

/-- The tables of a walk have the shapes that it asks for. -/
theorem Standing.fitting {visit : Visit C} (standing : Standing problem visit) :
    Fitting problem visit.i visit.j problem.distances visit.forests where
  forests := by
    rw [standing.forests]
    exact Table.fill_shaped _ _ _ _
  known := distances_shaped problem

/-- As long as a walk has nodes left, it takes a turn, and the loop is on its way to the same
outcome as before. -/
theorem Underway.turns {whole : Outcome} {walk : Walk} {visit : Visit C}
    (complete : problem.Complete)
    (underway : Underway problem whole ⟨problem.distances, walk, some visit⟩)
    (more : ¬(visit.x = 0 ∧ visit.y = 0)) :
    GoesOn problem whole ⟨problem.distances, walk, some visit⟩ := by
  have standing := underway.standing visit rfl
  obtain ⟨future, ahead, waiting, ⟨steps, found⟩, aheadYields, waitingYields, same⟩ :=
    underway.leads
  obtain ⟨turn, row, column, fewer, rest, foundTurn, turns, foundRest, rfl⟩ :=
    turn_found complete standing.inside standing.fitting standing.inRows standing.inColumns more
      found
  have less := turns.fewer complete.nested standing.inside standing.inRows standing.inColumns
  have advances := Advances.turns problem.distances visit.forests walk visit.i visit.j visit.x
    visit.y turn row column standing.inside standing.inRows standing.inColumns turns
  refine ⟨_, by simp [Problem.step?, more, foundTurn], advances, rfl,
    advances.pending_inside complete.nested underway.pending, ?_, ?_⟩
  · rintro _ ⟨⟩
    have inRows := standing.inRows
    have inColumns := standing.inColumns
    exact ⟨standing.inside, standing.forests, by simp only; omega, by simp only; omega⟩
  · obtain ⟨fewerParts, moreParts, fewerYields, moreYields, sum⟩ :=
      aheadYields.take turn waitingYields
    refine ⟨rest, fewerParts, moreParts, ⟨fewer, foundRest⟩, fewerYields, moreYields, ?_⟩
    rw [sum, parts_of_take, same]

/-- A table that has been walked back is closed. -/
theorem Underway.closes {whole : Outcome} {walk : Walk} {visit : Visit C}
    (underway : Underway problem whole ⟨problem.distances, walk, some visit⟩)
    (done : visit.x = 0 ∧ visit.y = 0) :
    GoesOn problem whole ⟨problem.distances, walk, some visit⟩ := by
  obtain ⟨future, ahead, waiting, ⟨steps, found⟩, aheadYields, waitingYields, same⟩ :=
    underway.leads
  obtain ⟨forests, i, j, x, y⟩ := visit
  obtain ⟨rfl, rfl⟩ := done
  obtain rfl : Walk.start = future := Option.some.inj ((walk_back_none steps).symm.trans found)
  exact ⟨_, by simp [Problem.step?], Advances.closes problem.distances forests walk i j, rfl,
    underway.pending, by simp, Walk.start, ahead, waiting, rfl, aheadYields, waitingYields, same⟩

/-- The outcome for a pair of subtrees is that of a walk and of the pairs that it leaves. -/
theorem walk_of_outcome {i j rounds : Nat} {outcome : Outcome}
    (found : problem.outcomeBetween problem.distances rounds (i, j) = some outcome) :
    ∃ walk later, problem.walkFrom problem.distances i j = some walk ∧
      Yields problem walk.pending later ∧ outcome.parts = walk.outcome.parts + later := by
  cases rounds with
  | zero => simp [Problem.outcomeBetween] at found
  | succ rounds =>
    simp only [Problem.outcomeBetween, Option.bind_eq_bind, Option.bind_eq_some_iff,
      Option.pure_def, Option.some.injEq] at found
    obtain ⟨walk, foundWalk, further, foundFurther, rfl⟩ := found
    have results := map_results _ _ _ foundFurther
    exact ⟨walk, _, foundWalk, ⟨further, results.imp fun _ _ each => ⟨rounds, each⟩, rfl⟩,
      parts_of_complete walk further⟩

variable [AddCommGroup C] [LinearOrder C] [IsOrderedAddMonoid C] [CostScale.Exact C]

/-- The table of the topmost pair on the stack is opened. Filling it again leaves the table of
distances as it is. -/
theorem Underway.opens {whole outcome : Outcome} {i j : Nat} {rest : List (Nat × Nat)}
    (complete : problem.Complete)
    (underway : Underway problem whole ⟨problem.distances, ⟨outcome, (i, j) :: rest⟩, none⟩) :
    GoesOn problem whole ⟨problem.distances, ⟨outcome, (i, j) :: rest⟩, none⟩ := by
  have inside : Inside problem (i, j) := underway.pending (i, j) List.mem_cons_self
  have leftBound : problem.left.first i ≤ i := complete.nested.left.first_le i inside.1
  have rightBound : problem.right.first j ≤ j := complete.nested.right.first_le j inside.2
  have advances := Advances.opens problem.distances (problem.forestTable problem.distances i j)
    outcome rest i j inside
  obtain ⟨_, _, _, rfl, ⟨_, nothing, rfl⟩, ⟨_, found, rfl⟩, same⟩ := underway.leads
  obtain rfl := List.forall₂_nil_left_iff.mp nothing
  obtain ⟨first, others, ⟨rounds, foundFirst⟩, foundOthers, rfl⟩ :=
    List.forall₂_cons_left_iff.mp found
  obtain ⟨walk, later, foundWalk, laterYields, parts⟩ := walk_of_outcome foundFirst
  refine ⟨_, ?_, advances, rfl, advances.pending_inside complete.nested underway.pending, ?_,
    walk, later, (others.map Outcome.parts).sum, ⟨_, foundWalk⟩, laterYields,
    ⟨others, foundOthers, rfl⟩, ?_⟩
  · have filled := fill_in_place complete inside.1 inside.2 (distances_shaped problem)
    rw [record_again complete.nested inside] at filled
    simp [Problem.step?, Problem.open?, filled, difference_found leftBound,
      difference_found rightBound, Numbering.first_found complete.leftFirsts inside.1,
      Numbering.first_found complete.rightFirsts inside.2]
  · rintro _ ⟨⟩
    exact ⟨inside, rfl, by simp only; omega, by simp only; omega⟩
  · have nothingYet : Walk.start.outcome.parts = 0 := rfl
    rw [← same, List.map_cons, List.sum_cons, parts, nothingYet, List.map_nil, List.sum_nil]
    abel

/-- As long as something is left to do, the loop goes on. -/
theorem Underway.goes_on {whole : Outcome} {state : Backtrace C} (complete : problem.Complete)
    (underway : Underway problem whole state) (more : state.ended = false) :
    GoesOn problem whole state := by
  obtain ⟨known, ⟨outcome, pending⟩, visit⟩ := state
  obtain rfl : known = problem.distances := underway.known
  cases visit with
  | none =>
    cases pending with
    | nil => simp [Backtrace.ended] at more
    | cons pair rest => exact underway.opens complete
  | some visit =>
    by_cases done : visit.x = 0 ∧ visit.y = 0
    · exact underway.closes done
    · exact underway.turns complete done

/-- Whatever the next state is, the loop remains on its way to the outcome. -/
theorem Underway.step {whole : Outcome} {state next : Backtrace C} (complete : problem.Complete)
    (underway : Underway problem whole state) (found : problem.step? state = some next) :
    Advances problem state next ∧ Underway problem whole next := by
  have more : state.ended = false := by
    obtain ⟨known, ⟨outcome, pending⟩, visit⟩ := state
    cases visit with
    | none =>
      cases pending with
      | nil => simp [Problem.step?, Problem.open?] at found
      | cons pair rest => rfl
    | some visit => rfl
  obtain ⟨same, foundSame, advances, underwaySame⟩ := underway.goes_on complete more
  obtain rfl : next = same := Option.some.inj (found.symm.trans foundSame)
  exact ⟨advances, underwaySame⟩

/-- Every state that is reached from a state on the way to an outcome is on its way there. -/
theorem Underway.reached {whole : Outcome} {state : Backtrace C} (complete : problem.Complete)
    (atFirst : Underway problem whole problem.backtrace) (reached : problem.Reached state) :
    Underway problem whole state := by
  induction reached with
  | refl => exact atFirst
  | tail _ found inductionHypothesis => exact (inductionHypothesis.step complete found).2

/-- The loop comes to an end, and the outcome is the one that it was on its way to. -/
theorem Underway.run {whole : Outcome} (complete : problem.Complete) (steps : Nat)
    (state : Backtrace C) (underway : Underway problem whole state)
    (enough : stepsLeft problem state ≤ steps) :
    ∃ last, problem.run? steps state = some last ∧ last.ended = true ∧
      Underway problem whole last := by
  induction steps generalizing state with
  | zero =>
    have ended : state.ended = true := by
      by_contra more
      obtain ⟨next, -, advances, -⟩ := underway.goes_on complete (eq_false_of_ne_true more)
      have fewer := advances.fewer_steps complete.nested
      omega
    exact ⟨state, by simp [Problem.run?, ended], ended, underway⟩
  | succ steps inductionHypothesis =>
    cases ended : state.ended with
    | true => exact ⟨state, by simp [Problem.run?, ended], ended, underway⟩
    | false =>
      obtain ⟨next, found, advances, underwayNext⟩ := underway.goes_on complete ended
      have fewer := advances.fewer_steps complete.nested
      obtain ⟨last, foundLast, atEnd, underwayLast⟩ :=
        inductionHypothesis next underwayNext (by omega)
      exact ⟨last, by simp [Problem.run?, ended, found, foundLast], atEnd, underwayLast⟩

end Running

/-- Sorted lists of the same pairs are the same. -/
theorem sorted_pairs_eq {pairs others : List (Nat × Nat)} (same : pairs.Perm others) :
    pairs.mergeSort pairNotAfter = others.mergeSort pairNotAfter := by
  refine List.Perm.eq_of_pairwise ?_ (sorted_pairs pairs) (sorted_pairs others)
    ((List.mergeSort_perm _ _).trans (same.trans (List.mergeSort_perm _ _).symm))
  intro first second _ _ notAfter notBefore
  rw [pair_not_after_iff] at notAfter notBefore
  exact Prod.ext (by omega) (by omega)

/-- The pair stands for subtrees of the subtrees of the other pair, which have fewer nodes in
all. -/
def SmallerSubtrees (left right : SyntaxTree) (pair other : Nat × Nat) : Prop :=
  left.subtree pair.1 ⊆ left.subtree other.1 ∧ right.subtree pair.2 ⊆ right.subtree other.2 ∧
    (left.subtree pair.1).card + (right.subtree pair.2).card <
      (left.subtree other.1).card + (right.subtree other.2).card

section Trees

variable (cost : CostModel C) (left right : SyntaxTree)

/-- Two numbers inside the runs of two subtrees stand for smaller subtrees, if one of them does not
begin where the subtree begins. -/
theorem smaller_subtrees {i j : Nat} {pair : Nat × Nat}
    (inside : Inside (Problem.ofTrees left right cost) (i, j))
    (leftWithin : (Problem.ofTrees left right cost).left.first i ≤ pair.1 ∧ pair.1 ≤ i)
    (rightWithin : (Problem.ofTrees left right cost).right.first j ≤ pair.2 ∧ pair.2 ≤ j)
    (split : (Problem.ofTrees left right cost).wholeTrees i j pair.1 pair.2 = false) :
    SmallerSubtrees left right pair (i, j) := by
  have nested := nested_of_trees left right cost
  have leftFirst := nested.left.first_mono i inside.1 pair.1 leftWithin.1 leftWithin.2
  have rightFirst := nested.right.first_mono j inside.2 pair.2 rightWithin.1 rightWithin.2
  have smaller := (split_smaller nested inside leftWithin rightWithin split).2
  have leftInside : i < left.size := inside.1.trans_eq (Numbering.size_of_tree left)
  have rightInside : j < right.size := inside.2.trans_eq (Numbering.size_of_tree right)
  rw [SmallerSubtrees, subtree_eq left i leftInside, subtree_eq right j rightInside,
    subtree_eq left pair.1 (by omega), subtree_eq right pair.2 (by omega)]
  refine ⟨Finset.Ico_subset_Ico leftFirst (by omega), Finset.Ico_subset_Ico rightFirst (by omega),
    ?_⟩
  have leftBegins := nested.left.first_le pair.1 (leftWithin.2.trans_lt inside.1)
  have rightBegins := nested.right.first_le pair.2 (rightWithin.2.trans_lt inside.2)
  simp only [Nat.card_Ico]
  simp only [extent, Problem.ofTrees] at *
  omega

variable [CostScale C]

/-- There are no more steps than four for each node. -/
theorem steps_at_first :
    stepsLeft (Problem.ofTrees left right cost) (Problem.ofTrees left right cost).backtrace ≤
      4 * (left.size + right.size) := by
  have nodes := extent_of_last_pair left right cost
  have top : ((Problem.ofTrees left right cost).left.size - 1,
      (Problem.ofTrees left right cost).right.size - 1) = (left.size - 1, right.size - 1) := by
    simp [Problem.ofTrees, Numbering.size_of_tree]
  simp only [stepsLeft, Problem.backtrace, top, List.map_cons, List.map_nil, List.sum_cons,
    List.sum_nil, pairSteps]
  omega

variable [AddCommGroup C] [LinearOrder C] [CostScale.Exact C]

/-- At first the loop is on its way to the outcome of the alignment, which accounts for every
node. -/
theorem underway_at_first :
    ∃ whole, (Problem.ofTrees left right cost).outcome? = some whole ∧
      Accounts (Problem.ofTrees left right cost) (Finset.range left.size)
        (Finset.range right.size) whole ∧
      Underway (Problem.ofTrees left right cost) whole
        (Problem.ofTrees left right cost).backtrace := by
  obtain ⟨whole, found, accounts⟩ := exists_whole_outcome cost left right
  refine ⟨whole, found, accounts, rfl, ?_, ?_, Walk.start, 0, whole.parts, rfl,
    ⟨[], List.Forall₂.nil, rfl⟩, ⟨[whole], .cons ⟨_, found⟩ .nil, ?_⟩, ?_⟩
  · simpa [Problem.backtrace, Problem.ofTrees, Numbering.size_of_tree]
      using last_pair_inside left right cost
  · rintro _ ⟨⟩
  · simp
  · have nothing : Outcome.empty.parts = 0 := rfl
    simp [Problem.backtrace, Walk.start, nothing]

end Trees

/-- At the end of the loop nothing is missing from the outcome that it was on its way to. -/
theorem Underway.parts_at_end [CostScale C] {problem : Problem C} {whole : Outcome}
    {last : Backtrace C} (underway : Underway problem whole last) (ended : last.ended = true) :
    last.walk.outcome.parts = whole.parts := by
  obtain ⟨known, ⟨outcome, pending⟩, visit⟩ := last
  simp only [Backtrace.ended, Bool.and_eq_true, Option.isNone_iff_eq_none,
    List.isEmpty_iff] at ended
  obtain ⟨rfl, rfl⟩ := ended
  obtain ⟨_, _, _, rfl, ⟨_, nothing, rfl⟩, ⟨_, nothingMore, rfl⟩, same⟩ := underway.leads
  obtain rfl := List.forall₂_nil_left_iff.mp nothing
  obtain rfl := List.forall₂_nil_left_iff.mp nothingMore
  have empty : Walk.start.outcome.parts = 0 := rfl
  simpa [empty] using same

/-- The loop of an alignment, with every index checked. -/
structure Backtracks (cost : CostModel Rat) (left right : SyntaxTree) : Prop where
  /-- Every index stays in range while the table of distances is computed. -/
  computed : (Problem.ofTrees left right cost).distances? =
    some (Problem.ofTrees left right cost).distances
  /-- As long as something is left to do there is a next state: every index is in range, and no node
  is taken from an empty forest. -/
  goesOn : ∀ state, (Problem.ofTrees left right cost).Reached state → state.ended = false →
    ∃ next, (Problem.ofTrees left right cost).step? state = some next
  /-- Filling tables again leaves the table of distances as it was computed. -/
  known : ∀ state, (Problem.ofTrees left right cost).Reached state →
    state.known = (Problem.ofTrees left right cost).distances
  /-- What goes on the stack is a pair of smaller subtrees than those that are being walked back. -/
  smaller : ∀ state next, (Problem.ofTrees left right cost).Reached state →
    (Problem.ofTrees left right cost).step? state = some next →
    next.walk.pending <:+ state.walk.pending ∨ ∃ visit pair, state.visit = some visit ∧
      next.walk.pending = pair :: state.walk.pending ∧
      SmallerSubtrees left right pair (visit.i, visit.j)
  /-- The loop ends after four steps for each node at most. Every node has been passed exactly once
  then, and the correspondence lists what has been kept. -/
  ends : ∃ last, (Problem.ofTrees left right cost).run? (4 * (left.size + right.size))
      (Problem.ofTrees left right cost).backtrace = some last ∧ last.ended = true ∧
    (last.walk.outcome.kept.map Prod.fst ++ last.walk.outcome.deleted).Perm
      (List.range left.size) ∧
    (last.walk.outcome.kept.map Prod.snd ++ last.walk.outcome.inserted).Perm
      (List.range right.size) ∧
    last.walk.outcome.kept.mergeSort pairNotAfter = correspondence cost left right

/-- Whatever two trees are aligned and whatever the costs are: the loop comes to an end, no index
leaves its range, no node is taken from an empty forest, only pairs of smaller subtrees go on the
stack, every node is passed exactly once, and the table of distances remains as it is.

The invariant is that the loop is under way to the outcome of both trees: what it has found,
together with what the present walk and the waiting pairs will yield, is that outcome. It holds at
first and every step keeps it, and a state that is under way can take its next step, so the indices
and the smaller pairs are read off any reached state. The bound on the steps leads to a last state.
There nothing is waiting any more, so what has been found is the outcome, and the outcome accounts
for every number once. -/
theorem backtrace_ends (cost : CostModel Rat) (left right : SyntaxTree) :
    Backtracks cost left right := by
  have complete := complete_of_trees left right cost
  obtain ⟨whole, found, accounts, atFirst⟩ := underway_at_first cost left right
  have underway (state : Backtrace Rat)
      (reached : (Problem.ofTrees left right cost).Reached state) :=
    Underway.reached complete atFirst reached
  refine ⟨distances_in_place complete, ?goesOn, fun state reached => (underway state reached).known,
    ?smaller, ?ends⟩
  case goesOn =>
    intro state reached more
    obtain ⟨next, step, -⟩ := (underway state reached).goes_on complete more
    exact ⟨next, step⟩
  case smaller =>
    intro state next reached step
    refine ((underway state reached).step complete step).1.stack.imp id ?_
    rintro ⟨visit, pair, visited, inside, pushed, leftWithin, rightWithin, split⟩
    exact ⟨visit, pair, visited, pushed,
      smaller_subtrees cost left right inside leftWithin rightWithin split⟩
  case ends =>
    obtain ⟨last, run, ended, underwayLast⟩ :=
      atFirst.run complete _ _ (steps_at_first cost left right)
    have parts := underwayLast.parts_at_end ended
    simp only [Outcome.parts, Prod.mk.injEq, Multiset.coe_eq_coe] at parts
    obtain ⟨kept, deleted, inserted⟩ := parts
    have leftOnce := accounts.left_once
    have rightOnce := accounts.right_once
    rw [Finset.range_val, ← Multiset.coe_range, Multiset.coe_eq_coe] at leftOnce rightOnce
    refine ⟨last, run, ended, ((kept.map Prod.fst).append deleted).trans leftOnce,
      ((kept.map Prod.snd).append inserted).trans rightOnce, ?_⟩
    rw [sorted_pairs_eq kept, correspondence, found]

/-- A list of one word is aligned with a tree that has this list as its second branch. The loop
opens the table of the tops, inserts the top on the right, and leaves the two lists: the pair on the
stack has the same left subtree as the one that is being walked back. -/
example :
    let problem : Problem Rat := .ofTrees (.node (Node.bare "list") [("0", .leaf (Node.bare "a"))])
      (.node (Node.bare "root") [("0", .leaf (Node.bare "b")),
        ("1", .node (Node.bare "list") [("0", .leaf (Node.bare "a"))])]) CostModel.unit
    ((List.range 3).foldlM (fun state _ => problem.step? state) problem.backtrace).map
      Backtrace.walk = some ⟨⟨[], [], [3]⟩, [(1, 2)]⟩ := by
  cbv

end TreeDelta.Alignment
