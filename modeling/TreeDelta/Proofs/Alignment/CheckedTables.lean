import TreeDelta.Proofs.Alignment.TableEntries

/-!
# Tables with checked indices

Reading beside a table gives a blank, and writing beside it changes nothing, so a wrong index goes
unnoticed. Here a table is read and written in earnest: there is no result where the table does not
have the row or the column. Within a table both mean the same as before.

A table is known by its shape and its entries, so the order in which it has been filled does not
matter.
-/

namespace TreeDelta.Table

variable {C : Type}

/-- The entry of a row and a column, if the table has both. -/
def read? (table : Table C) (row column : Nat) : Option C :=
  if column < table.width then table.cells[row * table.width + column]? else none

/-- The table with one entry replaced, if it has the row and the column. -/
def write? (table : Table C) (row column : Nat) (value : C) : Option (Table C) :=
  if column < table.width ∧ row * table.width + column < table.cells.size then
    some (table.set row column value)
  else none

variable {table other : Table C} {height width row column : Nat}

/-- A row and a column within a table lead to one of its cells. -/
theorem Shaped.cell_inside (shaped : table.Shaped height width) (inRows : row < height)
    (inColumns : column < width) : row * table.width + column < table.cells.size := by
  rw [shaped.width_eq, shaped.size_eq]
  exact cell_bound inRows inColumns

/-- Within a table every entry can be read. -/
theorem Shaped.entry_read (blank : C) (shaped : table.Shaped height width) (inRows : row < height)
    (inColumns : column < width) :
    table.read? row column = some (table.entry blank row column) := by
  have inside := shaped.cell_inside inRows inColumns
  rw [read?, if_pos (by rwa [shaped.width_eq]), entry, Array.getElem?_eq_getElem inside,
    Array.getD_eq_getD_getElem?, Array.getElem?_eq_getElem inside, Option.getD_some]

/-- Within a table every entry can be written. -/
theorem Shaped.entry_written (shaped : table.Shaped height width) (inRows : row < height)
    (inColumns : column < width) (value : C) :
    table.write? row column value = some (table.set row column value) :=
  if_pos ⟨by rwa [shaped.width_eq], shaped.cell_inside inRows inColumns⟩

/-- The entries after one of them has been written. -/
theorem Shaped.set_entry (blank : C) (shaped : table.Shaped height width) (inRows : row < height)
    (inColumns : column < width) (value : C) {anyRow anyColumn : Nat}
    (inWidth : anyColumn < width) :
    (table.set row column value).entry blank anyRow anyColumn =
      if anyRow = row ∧ anyColumn = column then value else table.entry blank anyRow anyColumn := by
  split
  · next here =>
    obtain ⟨rfl, rfl⟩ := here
    exact set_entry_self blank shaped inRows inColumns value
  · next elsewhere => exact set_entry_other blank shaped inColumns inWidth value elsewhere

/-- A table that is filled by a rule has the shape that was asked for. -/
theorem fill_shaped (blank : C) (height width : Nat) (rule : (Nat → Nat → C) → Nat → Nat → C) :
    (fill blank height width rule).Shaped height width :=
  ⟨rfl, filled_size blank width rule (height * width)⟩

/-- Tables of one shape with the same entries are the same. -/
theorem Shaped.ext (blank : C) (shaped : table.Shaped height width)
    (otherShaped : other.Shaped height width)
    (same : ∀ row column, row < height → column < width →
      table.entry blank row column = other.entry blank row column) : table = other := by
  have cells : table.cells = other.cells := by
    refine Array.ext (shaped.size_eq.trans otherShaped.size_eq.symm) ?_
    intro cell inside otherInside
    have bound : cell < height * width := by rwa [← shaped.size_eq]
    have positive : 0 < width := Nat.pos_of_mul_pos_left (Nat.zero_lt_of_lt bound)
    have entries := same (cell / width) (cell % width)
      (Nat.div_lt_of_lt_mul (by rwa [Nat.mul_comm])) (Nat.mod_lt cell positive)
    simpa [entry, shaped.width_eq, otherShaped.width_eq, Nat.div_add_mod', inside, otherInside]
      using entries
  obtain ⟨_, _⟩ := table
  obtain ⟨_, _⟩ := other
  obtain rfl := shaped.width_eq.trans otherShaped.width_eq.symm
  obtain rfl := cells
  rfl

end TreeDelta.Table
