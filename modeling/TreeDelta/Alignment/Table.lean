/-!
# Tables

A table has rows of equal width, stored one after the other. It can be filled row by row by a rule
that sees the entries filled so far; the entries of the finished table then satisfy the rule, as
long as the rule looks at earlier entries only.
-/

namespace TreeDelta

/-- Rows of equal width, one after the other. -/
structure Table (C : Type) where
  width : Nat
  cells : Array C
  deriving Repr, Inhabited

namespace Table

variable {C : Type}

/-- The entry of a row and a column, or `blank` where there is none. -/
def entry (blank : C) (table : Table C) (row column : Nat) : C :=
  table.cells.getD (row * table.width + column) blank

/-- A table with the same entry everywhere. -/
def constant (height width : Nat) (value : C) : Table C :=
  ⟨width, (List.replicate (height * width) value).toArray⟩

/-- The table with one entry replaced. -/
def set (table : Table C) (row column : Nat) (value : C) : Table C :=
  { table with cells := table.cells.setIfInBounds (row * table.width + column) value }

/-- Fill a table row by row. The rule is given the entries so far, the row and the column. -/
def fill (blank : C) (height width : Nat) (rule : (Nat → Nat → C) → Nat → Nat → C) : Table C :=
  ⟨width, (List.range (height * width)).foldl (fun cells index =>
    cells.push (rule (fun row column => cells.getD (row * width + column) blank)
      (index / width) (index % width))) #[]⟩

end Table

end TreeDelta
