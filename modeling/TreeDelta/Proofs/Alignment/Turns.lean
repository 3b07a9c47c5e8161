import TreeDelta.Proofs.Alignment.InPlace

/-!
# Walking back in one loop

The walks of an alignment are taken here one turn at a time. The pairs of subtrees that still need a
walk lie on a stack. When a pair is taken from it, the table of its forests is filled in place, and
the walk through that table goes on until both forests are empty; the pairs of smaller subtrees that
it leaves go on top of the stack. Every index is checked, and so is that no node is taken from an
empty forest: otherwise there is no next state.

What a turn of a walk and what a step of the loop can do is said once, and the rest follows from it.
A turn that leaves a pair of subtrees puts it on the stack, yet with every step fewer steps are
left: a pair takes less than four steps for each of its nodes, and a walk that has just been opened
leaves no pair before it has passed a node.
-/

namespace TreeDelta.Alignment

/-- A turn of a walk: what is done with the last nodes or the last subtrees of two forests. -/
inductive Turn where
  /-- The two last nodes are kept. -/
  | keep (pair : Nat × Nat)
  /-- The two last subtrees are left to a walk of their own. -/
  | postpone (pair : Nat × Nat)
  /-- The last node on the left is deleted. -/
  | delete (i : Nat)
  /-- The last node on the right is inserted. -/
  | insert (j : Nat)
  deriving DecidableEq, Repr

/-- A walk that has also taken a turn. -/
def Walk.take (walk : Walk) : Turn → Walk
  | .keep pair => walk.keep pair
  | .postpone pair => walk.postpone pair
  | .delete i => walk.delete i
  | .insert j => walk.insert j

/-- A table that is being walked back: the forests of the subtrees of `i` and `j`, of which `x` and
`y` nodes are left. -/
structure Visit (C : Type) where
  forests : Table C
  i : Nat
  j : Nat
  x : Nat
  y : Nat

/-- The state of the loop: the table of distances, what has been found and the stack of the pairs
that are left, and the table that is being walked back. -/
structure Backtrace (C : Type) where
  known : Table C
  walk : Walk
  visit : Option (Visit C)

namespace Backtrace

variable {C : Type}

/-- Nothing is left to do. -/
def ended (state : Backtrace C) : Bool := state.visit.isNone && state.walk.pending.isEmpty

end Backtrace

namespace Problem

variable {C : Type} [CostScale C]

/-- Whether matching the last nodes explains the distance of forests of `x + 1` and `y + 1`
nodes. -/
def matchExplains? (problem : Problem C) (known forests : Table C) (li lj x y : Nat) :
    Option Bool := do
  return CostScale.near (← forests.read? (x + 1) (y + 1))
    (← problem.matching? known forests li lj x y)

/-- Whether deleting the last node on the left explains the distance of forests of `x + 1` and `y`
nodes. -/
def deletionExplains? (problem : Problem C) (forests : Table C) (li x y : Nat) : Option Bool := do
  return CostScale.near (← forests.read? (x + 1) y)
    (CostScale.add (← forests.read? x y) (← problem.delete? (li + x)))

/-- The next turn of a walk, and how many nodes it leaves. There is none if the walk has passed both
forests, or if a node would have to be taken from an empty one. -/
def turn? (problem : Problem C) (known : Table C) (visit : Visit C) :
    Option (Turn × Nat × Nat) := do
  let li ← problem.left.firsts[visit.i]?
  let lj ← problem.right.firsts[visit.j]?
  match visit.x, visit.y with
  | 0, 0 => none
  | 0, y + 1 => return (.insert (lj + y), 0, y)
  | x + 1, 0 =>
    if ← problem.deletionExplains? visit.forests li x 0 then return (.delete (li + x), x, 0)
    else none
  | x + 1, y + 1 =>
    if ← problem.matchExplains? known visit.forests li lj x y then
      if ← problem.begins? li lj (li + x) (lj + y) then return (.keep (li + x, lj + y), x, y)
      else
        let row ← difference? (← problem.left.firsts[li + x]?) li
        let column ← difference? (← problem.right.firsts[lj + y]?) lj
        return (.postpone (li + x, lj + y), row, column)
    else if ← problem.deletionExplains? visit.forests li x (y + 1) then
      return (.delete (li + x), x, y + 1)
    else return (.insert (lj + y), x + 1, y)

/-- Take a pair from the stack and fill the table of its forests. -/
def open? (problem : Problem C) (state : Backtrace C) : Option (Backtrace C) :=
  match state.walk.pending with
  | [] => none
  | (i, j) :: rest => do
    let (forests, known) ← problem.fillInPlace? state.known i j
    let x := (← difference? i (← problem.left.firsts[i]?)) + 1
    let y := (← difference? j (← problem.right.firsts[j]?)) + 1
    return ⟨known, { state.walk with pending := rest }, some ⟨forests, i, j, x, y⟩⟩

/-- One step of the loop: a table is opened or closed, or its walk takes a turn. -/
def step? (problem : Problem C) (state : Backtrace C) : Option (Backtrace C) :=
  match state.visit with
  | none => problem.open? state
  | some visit =>
    if visit.x = 0 ∧ visit.y = 0 then some { state with visit := none }
    else do
      let (turn, x, y) ← problem.turn? state.known visit
      return ⟨state.known, state.walk.take turn, some { visit with x, y }⟩

/-- The loop before its first step: the tops of both trees need a walk. -/
def backtrace (problem : Problem C) : Backtrace C :=
  ⟨problem.distances, ⟨Outcome.empty, [(problem.left.size - 1, problem.right.size - 1)]⟩, none⟩

/-- Run the loop until nothing is left to do, for at most so many steps. -/
def run? (problem : Problem C) : Nat → Backtrace C → Option (Backtrace C)
  | 0, state => if state.ended then some state else none
  | steps + 1, state =>
    if state.ended then some state else (problem.step? state).bind (problem.run? steps)

/-- The state can be reached by steps of the loop. -/
def Reached (problem : Problem C) (state : Backtrace C) : Prop :=
  Relation.ReflTransGen (fun before after => problem.step? before = some after) problem.backtrace
    state

end Problem

variable {C : Type}

/-- What a turn can do in a walk through the forests of `x` and `y` nodes of the subtrees of `i` and
`j`, and how many nodes it leaves. -/
inductive Turns (problem : Problem C) (i j : Nat) : Nat → Nat → Turn → Nat → Nat → Prop
  /-- The tops of two whole trees are kept. -/
  | keep (x y : Nat)
      (whole : problem.wholeTrees i j (problem.left.first i + x) (problem.right.first j + y) =
        true) :
      Turns problem i j (x + 1) (y + 1)
        (.keep (problem.left.first i + x, problem.right.first j + y)) x y
  /-- The last subtrees of two other forests are left. -/
  | postpone (x y : Nat)
      (split : problem.wholeTrees i j (problem.left.first i + x) (problem.right.first j + y) =
        false) :
      Turns problem i j (x + 1) (y + 1)
        (.postpone (problem.left.first i + x, problem.right.first j + y))
        (problem.left.first (problem.left.first i + x) - problem.left.first i)
        (problem.right.first (problem.right.first j + y) - problem.right.first j)
  /-- The last node on the left is deleted. -/
  | delete (x y : Nat) :
      Turns problem i j (x + 1) y (.delete (problem.left.first i + x)) x y
  /-- The last node on the right is inserted. -/
  | insert (x y : Nat) :
      Turns problem i j x (y + 1) (.insert (problem.right.first j + y)) x y

section Checked

variable [CostScale C] {problem : Problem C} {known forests : Table C} {i j x y : Nat}

/-- The test whether matching explains a distance finds everything that it asks for. -/
theorem match_explains_found (complete : problem.Complete) (inside : Inside problem (i, j))
    (fitting : Fitting problem i j known forests) (inRows : problem.left.first i + x ≤ i)
    (inColumns : problem.right.first j + y ≤ j) :
    problem.matchExplains? known forests (problem.left.first i) (problem.right.first j) x y =
      some (matchExplains problem known forests i j (x + 1) (y + 1)) := by
  have here : forests.read? (x + 1) (y + 1) = some (Problem.look forests (x + 1) (y + 1)) :=
    fitting.forests.entry_read CostScale.zero (by omega) (by omega)
  simp [Problem.matchExplains?, matchExplains, here,
    matching_found complete inside.1 inside.2 fitting inRows inColumns]

/-- The test whether a deletion explains a distance finds everything that it asks for. -/
theorem deletion_explains_found (inside : Inside problem (i, j))
    (fitting : Fitting problem i j known forests) (inRows : problem.left.first i + x ≤ i)
    (inColumns : problem.right.first j + y ≤ j + 1) :
    problem.deletionExplains? forests (problem.left.first i) x y =
      some (deletionExplains problem forests i x y) := by
  have here : forests.read? (x + 1) y = some (Problem.look forests (x + 1) y) :=
    fitting.forests.entry_read CostScale.zero (by omega) (by omega)
  have before : forests.read? x y = some (Problem.look forests x y) :=
    fitting.forests.entry_read CostScale.zero (by omega) (by omega)
  have last : problem.left.first i + x < problem.left.size := inRows.trans_lt inside.1
  simp [Problem.deletionExplains?, deletionExplains, here, before, delete_found last]

/-- Without nodes on the right, the last node on the left is deleted if that explains the
distance. -/
theorem turn_left (complete : problem.Complete) (inside : Inside problem (i, j))
    (fitting : Fitting problem i j known forests) (inRows : problem.left.first i + x ≤ i)
    (explains : deletionExplains problem forests i x 0 = true) :
    problem.turn? known ⟨forests, i, j, x + 1, 0⟩ =
      some (.delete (problem.left.first i + x), x, 0) := by
  have inColumns : problem.right.first j + 0 ≤ j + 1 :=
    (complete.nested.right.first_le j inside.2).trans (Nat.le_succ j)
  have deletes := deletion_explains_found inside fitting inRows inColumns
  simp [Problem.turn?, Numbering.first_found complete.leftFirsts inside.1,
    Numbering.first_found complete.rightFirsts inside.2, deletes, explains]

/-- If neither forest is empty, the possibilities are tried in order. -/
theorem turn_both (complete : problem.Complete) (inside : Inside problem (i, j))
    (fitting : Fitting problem i j known forests) (inRows : problem.left.first i + x ≤ i)
    (inColumns : problem.right.first j + y ≤ j) :
    problem.turn? known ⟨forests, i, j, x + 1, y + 1⟩ =
      if matchExplains problem known forests i j (x + 1) (y + 1) then
        if problem.wholeTrees i j (problem.left.first i + x) (problem.right.first j + y) then
          some (.keep (problem.left.first i + x, problem.right.first j + y), x, y)
        else
          some (.postpone (problem.left.first i + x, problem.right.first j + y),
            problem.left.first (problem.left.first i + x) - problem.left.first i,
            problem.right.first (problem.right.first j + y) - problem.right.first j)
      else if deletionExplains problem forests i x (y + 1) then
        some (.delete (problem.left.first i + x), x, y + 1)
      else some (.insert (problem.right.first j + y), x + 1, y) := by
  have lastLeft : problem.left.first i + x < problem.left.size := inRows.trans_lt inside.1
  have lastRight : problem.right.first j + y < problem.right.size := inColumns.trans_lt inside.2
  have leftAfter := complete.nested.left.first_mono i inside.1 (problem.left.first i + x)
    (Nat.le_add_right _ _) inRows
  have rightAfter := complete.nested.right.first_mono j inside.2 (problem.right.first j + y)
    (Nat.le_add_right _ _) inColumns
  have matching := match_explains_found complete inside fitting inRows inColumns
  have oneMore : problem.right.first j + (y + 1) ≤ j + 1 := Nat.succ_le_succ inColumns
  have deletes := deletion_explains_found inside fitting inRows oneMore
  have asked := begins_found (i := i) (j := j) complete lastLeft lastRight
  simp only [Problem.turn?, Numbering.first_found complete.leftFirsts inside.1,
    Numbering.first_found complete.rightFirsts inside.2, matching, deletes, asked,
    Numbering.first_found complete.leftFirsts lastLeft,
    Numbering.first_found complete.rightFirsts lastRight, difference_found leftAfter,
    difference_found rightAfter, Option.bind_eq_bind, Option.bind_some, Option.pure_def]

/-- A walk that comes to an end takes a turn as long as nodes are left, and every index that the
turn asks for is in range.

The cases are which of the forests have nodes left. If both have, the walk and the turn ask the same
questions in the same order, and each answer is one sort of turn. -/
theorem turn_found (complete : problem.Complete) (inside : Inside problem (i, j))
    (fitting : Fitting problem i j known forests)
    (inRows : problem.left.first i + x ≤ i + 1) (inColumns : problem.right.first j + y ≤ j + 1)
    (more : ¬(x = 0 ∧ y = 0)) {steps : Nat} {walk : Walk}
    (found : problem.walkBack known forests i j steps x y = some walk) :
    ∃ turn row column fewer rest,
      problem.turn? known ⟨forests, i, j, x, y⟩ = some (turn, row, column) ∧
        Turns problem i j x y turn row column ∧
        problem.walkBack known forests i j fewer row column = some rest ∧
        walk = rest.take turn := by
  cases steps with
  | zero => cases x <;> cases y <;> simp [Problem.walkBack] at found more
  | succ steps =>
    cases x with
    | zero =>
      cases y with
      | zero => exact absurd ⟨rfl, rfl⟩ more
      | succ y =>
        have turn : problem.turn? known ⟨forests, i, j, 0, y + 1⟩ =
            some (.insert (problem.right.first j + y), 0, y) := by
          simp [Problem.turn?, Numbering.first_found complete.leftFirsts inside.1,
            Numbering.first_found complete.rightFirsts inside.2]
        rw [walk_back_right] at found
        obtain ⟨rest, foundRest, rfl⟩ := Option.map_eq_some_iff.mp found
        exact ⟨_, _, _, steps, rest, turn, Turns.insert 0 y, foundRest, rfl⟩
    | succ x =>
      cases y with
      | zero =>
        rw [walk_back_left] at found
        split_ifs at found with explains
        have turn := turn_left complete inside fitting (Nat.le_of_lt_succ inRows) explains
        obtain ⟨rest, foundRest, rfl⟩ := Option.map_eq_some_iff.mp found
        exact ⟨_, _, _, steps, rest, turn, Turns.delete x 0, foundRest, rfl⟩
      | succ y =>
        have turn := turn_both complete inside fitting (Nat.le_of_lt_succ inRows)
          (Nat.le_of_lt_succ inColumns)
        rw [walk_back_both] at found
        split_ifs at found turn with matched whole deleted <;>
          obtain ⟨rest, foundRest, rfl⟩ := Option.map_eq_some_iff.mp found
        · exact ⟨_, _, _, steps, rest, turn, Turns.keep x y whole, foundRest, rfl⟩
        · exact ⟨_, _, _, steps, rest, turn, Turns.postpone x y (eq_false_of_ne_true whole),
            foundRest, rfl⟩
        · exact ⟨_, _, _, steps, rest, turn, Turns.delete x (y + 1), foundRest, rfl⟩
        · exact ⟨_, _, _, steps, rest, turn, Turns.insert (x + 1) y, foundRest, rfl⟩

end Checked

/-- What a step of the loop can do. -/
inductive Advances (problem : Problem C) : Backtrace C → Backtrace C → Prop
  /-- The table of the topmost pair on the stack is opened. -/
  | opens (known forests : Table C) (outcome : Outcome) (rest : List (Nat × Nat)) (i j : Nat)
      (inside : Inside problem (i, j)) :
      Advances problem ⟨known, ⟨outcome, (i, j) :: rest⟩, none⟩
        ⟨known, ⟨outcome, rest⟩, some ⟨forests, i, j, i - problem.left.first i + 1,
          j - problem.right.first j + 1⟩⟩
  /-- The walk through a table takes a turn. -/
  | turns (known forests : Table C) (walk : Walk) (i j x y : Nat) (turn : Turn) (row column : Nat)
      (inside : Inside problem (i, j))
      (inRows : problem.left.first i + x ≤ i + 1) (inColumns : problem.right.first j + y ≤ j + 1)
      (turns : Turns problem i j x y turn row column) :
      Advances problem ⟨known, walk, some ⟨forests, i, j, x, y⟩⟩
        ⟨known, walk.take turn, some ⟨forests, i, j, row, column⟩⟩
  /-- A table that has been walked back is closed. -/
  | closes (known forests : Table C) (walk : Walk) (i j : Nat) :
      Advances problem ⟨known, walk, some ⟨forests, i, j, 0, 0⟩⟩ ⟨known, walk, none⟩

/-- A turn leaves fewer nodes of the two forests. -/
theorem Turns.fewer {problem : Problem C} (nested : problem.Nested) {i j x y : Nat}
    (inside : Inside problem (i, j)) (inRows : problem.left.first i + x ≤ i + 1)
    (inColumns : problem.right.first j + y ≤ j + 1) {turn : Turn} {row column : Nat}
    (turns : Turns problem i j x y turn row column) :
    row ≤ x ∧ column ≤ y ∧ row + column < x + y := by
  obtain ⟨leftInside, rightInside⟩ := inside
  cases turns with
  | keep x y whole => omega
  | postpone x y split =>
    have leftFirst := nested.left.first_le (problem.left.first i + x) (by omega)
    have rightFirst := nested.right.first_le (problem.right.first j + y) (by omega)
    omega
  | delete x y => omega
  | insert x y => omega

/-- A bound for the number of steps that a pair on the stack takes. -/
def pairSteps (problem : Problem C) (pair : Nat × Nat) : Nat := 4 * extent problem pair + 7

/-- A bound for the number of steps of a walk from the forests of `x` and `y` nodes. It is lower if
both are whole trees, because no pair of subtrees can be left then. -/
def visitSteps (problem : Problem C) (i j x y : Nat) : Nat :=
  if x ≠ 0 ∧ y ≠ 0 ∧ problem.wholeTrees i j (problem.left.first i + x - 1)
      (problem.right.first j + y - 1) = true
  then 4 * (x + y) - 2 else 4 * (x + y) + 1

/-- A bound for the number of steps that are left. -/
def stepsLeft (problem : Problem C) (state : Backtrace C) : Nat :=
  (state.walk.pending.map (pairSteps problem)).sum +
    match state.visit with
    | none => 0
    | some visit => visitSteps problem visit.i visit.j visit.x visit.y

/-- The bound for a walk depends on the number of nodes, up to the discount for whole trees. -/
theorem visit_steps_bounds (problem : Problem C) (i j x y : Nat) :
    4 * (x + y) - 2 ≤ visitSteps problem i j x y ∧
      visitSteps problem i j x y ≤ 4 * (x + y) + 1 := by
  unfold visitSteps
  split <;> omega

/-- Whenever a walk takes a turn, fewer steps are left, even if a pair of subtrees goes on the
stack. -/
theorem Turns.fewer_steps {problem : Problem C} (nested : problem.Nested) {i j x y : Nat}
    (inside : Inside problem (i, j)) (inRows : problem.left.first i + x ≤ i + 1)
    (inColumns : problem.right.first j + y ≤ j + 1) {turn : Turn} {row column : Nat}
    (turns : Turns problem i j x y turn row column) (walk : Walk) :
    ((walk.take turn).pending.map (pairSteps problem)).sum + visitSteps problem i j row column <
      (walk.pending.map (pairSteps problem)).sum + visitSteps problem i j x y := by
  have fewer := turns.fewer nested inside inRows inColumns
  have before := (visit_steps_bounds problem i j x y).1
  have after := (visit_steps_bounds problem i j row column).2
  obtain ⟨leftInside, rightInside⟩ := inside
  cases turns with
  | keep x y whole =>
    simp only [Walk.take, Walk.keep]
    omega
  | postpone x y split =>
    have leftFirst := nested.left.first_le (problem.left.first i + x) (by omega)
    have rightFirst := nested.right.first_le (problem.right.first j + y) (by omega)
    have leftAfter := nested.left.first_mono i leftInside (problem.left.first i + x)
      (by omega) (by omega)
    have rightAfter := nested.right.first_mono j rightInside (problem.right.first j + y)
      (by omega) (by omega)
    have noDiscount : visitSteps problem i j (x + 1) (y + 1) = 4 * (x + 1 + (y + 1)) + 1 := by
      simp [visitSteps, ← Nat.add_assoc, split]
    simp only [Walk.take, Walk.postpone, List.map_cons, List.sum_cons, pairSteps, extent,
      noDiscount]
    omega
  | delete x y =>
    simp only [Walk.take, Walk.delete]
    omega
  | insert x y =>
    simp only [Walk.take, Walk.insert]
    omega

/-- Every step of the loop leaves fewer steps. -/
theorem Advances.fewer_steps {problem : Problem C} (nested : problem.Nested)
    {state next : Backtrace C} (advances : Advances problem state next) :
    stepsLeft problem next < stepsLeft problem state := by
  cases advances with
  | opens known forests outcome rest i j inside =>
    have leftBound : problem.left.first i ≤ i := nested.left.first_le i inside.1
    have rightBound : problem.right.first j ≤ j := nested.right.first_le j inside.2
    have whole : problem.wholeTrees i j (problem.left.first i + (i - problem.left.first i + 1) - 1)
        (problem.right.first j + (j - problem.right.first j + 1) - 1) = true := by
      rw [whole_trees_iff]
      constructor <;> congr 1 <;> omega
    simp only [stepsLeft, List.map_cons, List.sum_cons, pairSteps, extent, visitSteps, whole]
    simp only [ne_eq, Nat.add_eq_zero_iff, one_ne_zero, and_false, not_false_eq_true, and_self,
      ↓reduceIte]
    omega
  | turns known forests walk i j x y turn row column inside inRows inColumns turns =>
    exact turns.fewer_steps nested inside inRows inColumns walk
  | closes known forests walk i j =>
    simp [stepsLeft, visitSteps]

/-- A step of the loop takes a pair from the stack, leaves the stack as it is, or puts a pair of
smaller subtrees on top of it. -/
theorem Advances.stack {problem : Problem C} {state next : Backtrace C}
    (advances : Advances problem state next) :
    next.walk.pending <:+ state.walk.pending ∨ ∃ visit pair, state.visit = some visit ∧
      Inside problem (visit.i, visit.j) ∧ next.walk.pending = pair :: state.walk.pending ∧
      (problem.left.first visit.i ≤ pair.1 ∧ pair.1 ≤ visit.i) ∧
      (problem.right.first visit.j ≤ pair.2 ∧ pair.2 ≤ visit.j) ∧
      problem.wholeTrees visit.i visit.j pair.1 pair.2 = false := by
  cases advances with
  | opens known forests outcome rest i j inside => exact Or.inl (List.suffix_cons _ _)
  | turns known forests walk i j x y turn row column inside inRows inColumns turns =>
    cases turns with
    | keep x y whole => exact Or.inl List.suffix_rfl
    | postpone x y split =>
      exact Or.inr ⟨_, _, rfl, inside, rfl, ⟨Nat.le_add_right _ _, Nat.le_of_lt_succ inRows⟩,
        ⟨Nat.le_add_right _ _, Nat.le_of_lt_succ inColumns⟩, split⟩
    | delete x y => exact Or.inl List.suffix_rfl
    | insert x y => exact Or.inl List.suffix_rfl
  | closes known forests walk i j => exact Or.inl List.suffix_rfl

/-- Every pair on the stack is a pair of subtrees. -/
theorem Advances.pending_inside {problem : Problem C} (nested : problem.Nested)
    {state next : Backtrace C} (advances : Advances problem state next)
    (inside : ∀ pair ∈ state.walk.pending, Inside problem pair) :
    ∀ pair ∈ next.walk.pending, Inside problem pair := by
  rcases advances.stack with
    fewer | ⟨visit, left, -, visited, pushed, leftWithin, rightWithin, split⟩
  · exact fun pair member => inside pair (fewer.subset member)
  · rw [pushed, List.forall_mem_cons]
    exact ⟨(split_smaller nested visited leftWithin rightWithin split).1, inside⟩

end TreeDelta.Alignment
