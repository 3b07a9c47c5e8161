/-!
# One-to-one pairings

A pairing associates left members with right members so that no member has two partners. Making a
new pair takes both of its members out of the pairs they were in, so a partner that is left alone is
gone from its own side as well.

Two tables hold the same pairs, one for looking up from either side. Which members count as the
same is up to the equality test of each side: equal texts may be one member, or every occurrence of
a text a member of its own. The order of the tables carries no meaning.
-/

namespace TreeDelta

/-- A one-to-one association, held once from each side. -/
structure Pairing (α β : Type) where
  rightOf : List (α × β)
  leftOf : List (β × α)
  deriving Repr, Inhabited

namespace Pairing

variable {α β : Type}

/-- A table without the entry of one key. -/
def eraseKey [BEq α] (key : α) (table : List (α × β)) : List (α × β) :=
  table.filter fun entry => !(entry.1 == key)

/-- Hold a value under a key. A key that is there already stays and holds the new value. -/
def setEntry [BEq α] (key : α) (value : β) (table : List (α × β)) : List (α × β) :=
  if table.any fun entry => entry.1 == key then
    table.map fun entry => if entry.1 == key then (entry.1, value) else entry
  else (key, value) :: table

/-- A table that is filled with the entries of another one, one after the other. -/
def refill [BEq α] (table : List (α × β)) : List (α × β) :=
  table.foldl (fun filled entry => setEntry entry.1 entry.2 filled) []

/-- The pairing without pairs. -/
def empty : Pairing α β := ⟨[], []⟩

/-- What is left of a pairing when every pair is given up. -/
def clear (_ : Pairing α β) : Pairing α β := empty

/-- The pairs, each once. -/
def pairs (pairing : Pairing α β) : List (α × β) := pairing.rightOf

/-- The number of pairs. -/
def size (pairing : Pairing α β) : Nat := pairing.rightOf.length

/-- Whether there are no pairs. -/
def isEmpty (pairing : Pairing α β) : Bool := pairing.rightOf.isEmpty

/-- The left members that have a partner. -/
def lefts (pairing : Pairing α β) : List α := pairing.rightOf.map Prod.fst

/-- The right members that have a partner. -/
def rights (pairing : Pairing α β) : List β := pairing.leftOf.map Prod.fst

/-- The right partner of a left member. -/
def right? [BEq α] (pairing : Pairing α β) (left : α) : Option β :=
  pairing.rightOf.lookup left

/-- The left partner of a right member. -/
def left? [BEq β] (pairing : Pairing α β) (right : β) : Option α :=
  pairing.leftOf.lookup right

/-- Whether a left member has a partner. -/
def hasLeft [BEq α] (pairing : Pairing α β) (left : α) : Bool := (pairing.right? left).isSome

/-- Whether a right member has a partner. -/
def hasRight [BEq β] (pairing : Pairing α β) (right : β) : Bool := (pairing.left? right).isSome

variable [BEq α] [BEq β]

/-- Take a left member out of its pair. The result is its partner, if it had one. -/
def removeLeft (pairing : Pairing α β) (left : α) : Option β × Pairing α β :=
  match pairing.right? left with
  | none => (none, pairing)
  | some right => (some right, ⟨eraseKey left pairing.rightOf, eraseKey right pairing.leftOf⟩)

/-- Take a right member out of its pair. The result is its partner, if it had one. -/
def removeRight (pairing : Pairing α β) (right : β) : Option α × Pairing α β :=
  match pairing.left? right with
  | none => (none, pairing)
  | some left => (some left, ⟨eraseKey left pairing.rightOf, eraseKey right pairing.leftOf⟩)

/-- Pair two members, after taking both out of the pairs they were in. The result is the former
partner of the left one, if it had one. -/
def put (pairing : Pairing α β) (left : α) (right : β) : Option β × Pairing α β :=
  let (former, withoutLeft) := pairing.removeLeft left
  let (_, withoutBoth) := withoutLeft.removeRight right
  (former, ⟨(left, right) :: withoutBoth.rightOf, (right, left) :: withoutBoth.leftOf⟩)

/-- The pairing after putting one more pair. -/
def insert (pairing : Pairing α β) (left : α) (right : β) : Pairing α β :=
  (pairing.put left right).2

/-- The pairing that results from putting a list of pairs one after the other. -/
def ofList (pairs : List (α × β)) : Pairing α β :=
  pairs.foldl (fun pairing pair => pairing.insert pair.1 pair.2) empty

/-- A pairing of its own with the same pairs. Either table is filled from its counterpart. -/
def copy (pairing : Pairing α β) : Pairing α β :=
  ⟨refill pairing.rightOf, refill pairing.leftOf⟩

end Pairing

/-- The text of a pairing, given the texts of its members. -/
def Pairing.text {α β : Type} (leftText : α → String) (rightText : β → String)
    (pairing : Pairing α β) : String :=
  "\x7b" ++ ", ".intercalate (pairing.pairs.map fun (left, right) =>
    leftText left ++ ": " ++ rightText right) ++ "\x7d"

/-- Something that is told apart by where it occurs and not by what it is. -/
structure Occurrence (α : Type) where
  position : Nat
  content : α
  deriving Repr, Inhabited

/-- Two occurrences are the same exactly when they stand at the same position. -/
instance {α : Type} : BEq (Occurrence α) := ⟨fun first second => first.position == second.position⟩

end TreeDelta
