/-!
# Middle snakes

Turning an old sequence into a new one is a path through a grid: a step right deletes an old item, a
step down inserts a new one, and where the items agree a diagonal step keeps one for nothing. A
snake is a run of diagonal steps. The search for a shortest path goes forward from the start and
backward from the end at the same time, one paid step at a time. It remembers for each diagonal how
far it has come, and stops when the two searches meet; the point at which the last snake begins
splits the problem into two smaller ones.
-/

namespace TreeDelta.LineDiff

variable {α : Type}

/-- How far a search has come on each diagonal. Diagonals are numbered from `-centre` on. -/
structure Front where
  centre : Nat
  reach : Array Nat
  deriving Repr, Inhabited

namespace Front

/-- The front of a search that has not begun. -/
def start (centre : Nat) : Front := ⟨centre, (List.replicate (2 * centre + 1) 0).toArray⟩

/-- How far the search has come on a diagonal. -/
def reached (front : Front) (diagonal : Int) : Nat :=
  front.reach.getD (diagonal + front.centre).toNat 0

/-- The front after a diagonal has been followed up to `x`. -/
def advance (front : Front) (diagonal : Int) (x : Nat) : Front :=
  { front with reach := front.reach.setIfInBounds (diagonal + front.centre).toNat x }

/-- Where the search enters a diagonal with its paid step number `depth`: from the diagonal above
by a step down, or from the diagonal below by a step right, whichever has come further. -/
def entry (front : Front) (depth : Nat) (diagonal : Int) : Nat :=
  if diagonal = -(depth : Int) ∨
      (diagonal ≠ depth ∧ front.reached (diagonal - 1) < front.reached (diagonal + 1)) then
    front.reached (diagonal + 1)
  else front.reached (diagonal - 1) + 1

end Front

/-- The number of leading items that two sequences share. -/
def commonLength [DecidableEq α] : List α → List α → Nat
  | first :: firstRest, second :: secondRest =>
    if first = second then commonLength firstRest secondRest + 1 else 0
  | _, _ => 0

/-- The diagonals that a search can be on after `depth` paid steps, from the highest down. -/
def diagonals (depth : Nat) : List Int :=
  (List.range (depth + 1)).map fun (index : Nat) => (depth : Int) - 2 * (index : Int)

/-- Two sequences and the same sequences from their ends. -/
structure Grid (α : Type) where
  old : List α
  new : List α
  oldBackward : List α
  newBackward : List α

namespace Grid

/-- The grid of two sequences. -/
def ofLists (old new : List α) : Grid α := ⟨old, new, old.reverse, new.reverse⟩

/-- The number of columns less the number of rows: the diagonal that ends at the end. -/
def difference (grid : Grid α) : Int := grid.old.length - grid.new.length

/-- Whether a forward and a backward front together cover all columns of a diagonal. -/
def meets (grid : Grid α) (here there : Front) (diagonal : Int) : Bool :=
  grid.old.length ≤ here.reached diagonal + there.reached (grid.difference - diagonal)

variable [DecidableEq α]

/-- Take the forward search along a list of diagonals. The result is its front and, if it has met
the backward search, the point at which the last snake begins. -/
def forward (grid : Grid α) (depth : Nat) (backwardFront : Front) :
    List Int → Front → Front × Option (Nat × Nat)
  | [], front => (front, none)
  | diagonal :: rest, front =>
    let x := front.entry depth diagonal
    let y := ((x : Int) - diagonal).toNat
    let length := commonLength (grid.old.drop x) (grid.new.drop y)
    let front := front.advance diagonal (x + length)
    if grid.difference % 2 ≠ 0 ∧ (diagonal - grid.difference).natAbs + 1 ≤ depth ∧
        grid.meets front backwardFront diagonal then
      (front, some (x, y))
    else grid.forward depth backwardFront rest front

/-- Take the backward search along a list of diagonals. The result is its front and, if it has met
the forward search, the point at which the last snake begins. -/
def backward (grid : Grid α) (depth : Nat) (forwardFront : Front) :
    List Int → Front → Front × Option (Nat × Nat)
  | [], front => (front, none)
  | diagonal :: rest, front =>
    let x := front.entry depth diagonal
    let y := ((x : Int) - diagonal).toNat
    let length := commonLength (grid.oldBackward.drop x) (grid.newBackward.drop y)
    let front := front.advance diagonal (x + length)
    if grid.difference % 2 = 0 ∧ (diagonal - grid.difference).natAbs ≤ depth ∧
        grid.meets front forwardFront diagonal then
      (front, some (grid.old.length - (x + length), grid.new.length - (y + length)))
    else grid.backward depth forwardFront rest front

/-- Search with `depth` paid steps and more, for `rounds` rounds. -/
def search (grid : Grid α) : Nat → Nat → Front → Front → Option (Nat × Nat)
  | 0, _, _, _ => none
  | rounds + 1, depth, forwardFront, backwardFront =>
    let (forwardFront, found) :=
      grid.forward depth backwardFront (diagonals depth) forwardFront
    match found with
    | some point => some point
    | none =>
      let (backwardFront, found) :=
        grid.backward depth forwardFront (diagonals depth) backwardFront
      match found with
      | some point => some point
      | none => grid.search rounds (depth + 1) forwardFront backwardFront

end Grid

/-- The point at which the middle snake of two sequences begins. Half as many paid steps from either
end as both sequences have items lead to it. -/
def middleSnake? [DecidableEq α] (old new : List α) : Option (Nat × Nat) :=
  let rounds := (old.length + new.length + 1) / 2 + 1
  let front := Front.start (rounds + 1)
  (Grid.ofLists old new).search rounds 0 front front

end TreeDelta.LineDiff
