import Mathlib.Tactic.Ring
import TreeDelta.Alignment.Table

/-!
# Entries of tables

A table is stored in one run of cells, so an entry is found by arithmetic on its row and column.
The statements here hide that arithmetic. An entry that is replaced is the only one that changes.
A table that is filled row by row satisfies its rule at every entry, provided that the rule looks at
earlier entries only: rows above, and columns to the left in the same row.
-/

namespace TreeDelta.Table

variable {C : Type}

/-- The table has room for exactly `height` rows of `width` entries. -/
structure Shaped (table : Table C) (height width : Nat) : Prop where
  width_eq : table.width = width
  size_eq : table.cells.size = height * width

/-- A row and a column within a table lead to one of its cells. -/
theorem cell_bound {height width row column : Nat} (inRows : row < height)
    (inColumns : column < width) : row * width + column < height * width := by
  have rows : (row + 1) * width ≤ height * width := Nat.mul_le_mul_right width inRows
  have next : (row + 1) * width = row * width + width := by ring
  omega

/-- The row and the column of a cell are read off its number. -/
theorem cell_position {width column : Nat} (row : Nat) (inColumns : column < width) :
    (row * width + column) / width = row ∧ (row * width + column) % width = column := by
  have positive : 0 < width := by omega
  constructor
  · rw [Nat.add_comm, Nat.add_mul_div_right _ _ positive, Nat.div_eq_of_lt inColumns,
      Nat.zero_add]
  · rw [Nat.mul_add_mod', Nat.mod_eq_of_lt inColumns]

/-- Different places lead to different cells. -/
theorem cell_injective {width row column otherRow otherColumn : Nat} (inColumns : column < width)
    (otherInColumns : otherColumn < width)
    (same : row * width + column = otherRow * width + otherColumn) :
    row = otherRow ∧ column = otherColumn := by
  obtain ⟨rowRead, columnRead⟩ := cell_position row inColumns
  obtain ⟨otherRowRead, otherColumnRead⟩ := cell_position otherRow otherInColumns
  rw [same] at rowRead columnRead
  exact ⟨rowRead.symm.trans otherRowRead, columnRead.symm.trans otherColumnRead⟩

/-- A table with the same entry everywhere has the shape that was asked for. -/
theorem constant_shaped (height width : Nat) (value : C) :
    (constant height width value).Shaped height width :=
  ⟨rfl, by simp [constant]⟩

/-- Replacing an entry keeps the shape. -/
theorem set_shaped {table : Table C} {height width : Nat} (shaped : table.Shaped height width)
    (row column : Nat) (value : C) : (table.set row column value).Shaped height width :=
  ⟨shaped.width_eq, by simpa [set] using shaped.size_eq⟩

/-- The entry that was replaced has its new value. -/
theorem set_entry_self (blank : C) {table : Table C} {height width row column : Nat}
    (shaped : table.Shaped height width) (inRows : row < height) (inColumns : column < width)
    (value : C) : (table.set row column value).entry blank row column = value := by
  have inside : row * width + column < table.cells.size := by
    rw [shaped.size_eq]
    exact cell_bound inRows inColumns
  simp [set, entry, shaped.width_eq, Array.getD_eq_getD_getElem?,
    Array.getElem?_setIfInBounds_self_of_lt inside]

/-- The other entries stay. -/
theorem set_entry_other (blank : C) {table : Table C}
    {height width row column otherRow otherColumn : Nat} (shaped : table.Shaped height width)
    (inColumns : column < width) (otherInColumns : otherColumn < width) (value : C)
    (different : ¬(otherRow = row ∧ otherColumn = column)) :
    (table.set row column value).entry blank otherRow otherColumn =
      table.entry blank otherRow otherColumn := by
  have apart : row * width + column ≠ otherRow * width + otherColumn := by
    intro same
    obtain ⟨rows, columns⟩ := cell_injective inColumns otherInColumns same
    exact different ⟨rows.symm, columns.symm⟩
  simp [set, entry, shaped.width_eq, Array.getD_eq_getD_getElem?,
    Array.getElem?_setIfInBounds_ne apart]

/-- A table after a list of places has been given new entries, one after the other. -/
def setAll (table : Table C) (places : List (Nat × Nat)) (value : Nat → Nat → C) : Table C :=
  places.foldl (fun table place => table.set place.1 place.2 (value place.1 place.2)) table

/-- Replacing several entries keeps the shape. -/
theorem set_all_shaped {table : Table C} {height width : Nat} (shaped : table.Shaped height width)
    (places : List (Nat × Nat)) (value : Nat → Nat → C) :
    (table.setAll places value).Shaped height width := by
  induction places generalizing table with
  | nil => exact shaped
  | cons place rest inductionHypothesis =>
    exact inductionHypothesis (set_shaped shaped place.1 place.2 _)

/-- The entries that were replaced have their new values, and the others stay. -/
theorem set_all_entry (blank : C) {table : Table C} {height width row column : Nat}
    (shaped : table.Shaped height width) (places : List (Nat × Nat)) (value : Nat → Nat → C)
    (inside : ∀ place ∈ places, place.1 < height ∧ place.2 < width) (inColumns : column < width) :
    (table.setAll places value).entry blank row column =
      if (row, column) ∈ places then value row column else table.entry blank row column := by
  induction places generalizing table with
  | nil => simp [setAll]
  | cons place rest inductionHypothesis =>
    obtain ⟨placeRow, placeColumn⟩ := place
    obtain ⟨placeInRows, placeInColumns⟩ := inside (placeRow, placeColumn) List.mem_cons_self
    have later := inductionHypothesis
      (set_shaped shaped placeRow placeColumn (value placeRow placeColumn))
      fun other member => inside other (List.mem_cons_of_mem _ member)
    refine later.trans ?_
    by_cases again : (row, column) ∈ rest
    · simp [again]
    · by_cases here : (row, column) = (placeRow, placeColumn)
      · obtain ⟨rfl, rfl⟩ := Prod.mk.inj here
        rw [if_neg again, if_pos List.mem_cons_self]
        exact set_entry_self blank shaped placeInRows placeInColumns _
      · rw [if_neg again, if_neg (by simp [again, here])]
        exact set_entry_other blank shaped placeInColumns inColumns _
          fun same => here (Prod.ext same.1 same.2)

/-- The first `count` cells of a table that is filled by a rule. -/
def filled (blank : C) (width : Nat) (rule : (Nat → Nat → C) → Nat → Nat → C) (count : Nat) :
    Array C :=
  (List.range count).foldl (fun cells index =>
    cells.push (rule (fun row column => cells.getD (row * width + column) blank)
      (index / width) (index % width))) #[]

/-- One more cell is filled by the rule from the cells before it. -/
theorem filled_succ (blank : C) (width : Nat) (rule : (Nat → Nat → C) → Nat → Nat → C)
    (count : Nat) :
    filled blank width rule (count + 1) = (filled blank width rule count).push
      (rule (fun row column => (filled blank width rule count).getD (row * width + column) blank)
        (count / width) (count % width)) := by
  simp [filled, List.range_succ]

/-- Filling takes one cell at a time. -/
theorem filled_size (blank : C) (width : Nat) (rule : (Nat → Nat → C) → Nat → Nat → C)
    (count : Nat) : (filled blank width rule count).size = count := by
  induction count with
  | zero => rfl
  | succ count inductionHypothesis => simp [filled_succ, inductionHypothesis]

/-- The last cell is the rule's value for the cells before it. -/
theorem filled_last (blank : C) (width : Nat) (rule : (Nat → Nat → C) → Nat → Nat → C)
    (count : Nat) :
    (filled blank width rule (count + 1)).getD count blank =
      rule (fun row column => (filled blank width rule count).getD (row * width + column) blank)
        (count / width) (count % width) := by
  have last := filled_size blank width rule count
  rw [filled_succ, Array.getD_eq_getD_getElem?, Array.getElem?_push, if_pos last.symm,
    Option.getD_some]

/-- A cell that has been filled keeps its value while later cells are filled. -/
theorem filled_stable (blank : C) (width : Nat) (rule : (Nat → Nat → C) → Nat → Nat → C)
    (index count later : Nat) (before : index < count) (notAfter : count ≤ later) :
    (filled blank width rule later).getD index blank =
      (filled blank width rule count).getD index blank := by
  induction later, notAfter using Nat.le_induction with
  | base => rfl
  | succ later notAfter inductionHypothesis =>
    have inside : index < (filled blank width rule later).size := by
      rw [filled_size]
      omega
    rw [← inductionHypothesis, filled_succ, Array.getD_eq_getD_getElem?,
      Array.getD_eq_getD_getElem?, Array.getElem?_push_lt inside,
      Array.getElem?_eq_getElem inside]

/-- Every entry of a filled table satisfies the rule, if the rule looks at earlier entries only. -/
theorem fill_entry (blank : C) (height width : Nat) (rule : (Nat → Nat → C) → Nat → Nat → C)
    (row column : Nat) (inRows : row < height) (inColumns : column < width)
    (looksBack : ∀ first second : Nat → Nat → C,
      (∀ earlierRow earlierColumn, earlierColumn < width →
        earlierRow < row ∨ earlierRow = row ∧ earlierColumn < column →
        first earlierRow earlierColumn = second earlierRow earlierColumn) →
      rule first row column = rule second row column) :
    (fill blank height width rule).entry blank row column =
      rule ((fill blank height width rule).entry blank) row column := by
  have cell : row * width + column < height * width := cell_bound inRows inColumns
  have entries (anyRow anyColumn : Nat) : (fill blank height width rule).entry blank anyRow
      anyColumn = (filled blank width rule (height * width)).getD
        (anyRow * width + anyColumn) blank := rfl
  obtain ⟨rowRead, columnRead⟩ := cell_position row inColumns
  rw [entries, filled_stable blank width rule _ _ _ (Nat.lt_succ_self _) cell, filled_last,
    rowRead, columnRead]
  apply looksBack
  intro earlierRow earlierColumn inWidth earlier
  have before : earlierRow * width + earlierColumn < row * width + column := by
    rcases earlier with above | ⟨rfl, toTheLeft⟩
    · exact Nat.lt_of_lt_of_le (cell_bound above inWidth) (Nat.le_add_right _ _)
    · omega
  exact (filled_stable blank width rule _ _ _ before cell.le).symm

end TreeDelta.Table
