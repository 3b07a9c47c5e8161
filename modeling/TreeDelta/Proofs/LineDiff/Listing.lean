import Mathlib.Data.List.Basic
import TreeDelta.LineDiff.Hunk
import TreeDelta.Proofs.LineDiff.Scripts

/-!
# Listings

Read from left to right, the blocks of a script are a listing of marked items: those that were kept,
those that were deleted and those that were inserted. Without the inserted items it is the old
sequence, without the deleted ones the new one. Equal stretches and changes alternate in it, and
every change is of at least one item, because every run of the script is.
-/

namespace TreeDelta.LineDiff

variable {α : Type}

/-- What a script says about an item. -/
inductive Mark where
  /-- Both sequences have the item. -/
  | kept
  /-- Only the old sequence has it. -/
  | deleted
  /-- Only the new sequence has it. -/
  | inserted
  deriving DecidableEq, Repr

/-- An item of a listing. -/
structure Marked (α : Type) where
  mark : Mark
  item : α
  deriving DecidableEq, Repr

/-- The old sequence of a listing. -/
def oldItems (listing : List (Marked α)) : List α :=
  (listing.filter (·.mark ≠ .inserted)).map Marked.item

/-- The new sequence of a listing. -/
def newItems (listing : List (Marked α)) : List α :=
  (listing.filter (·.mark ≠ .deleted)).map Marked.item

/-- The items of a block with their marks. -/
def Block.listing : Block α → List (Marked α)
  | .equal items => items.map (Marked.mk .kept)
  | .change deleted inserted =>
    deleted.map (Marked.mk .deleted) ++ inserted.map (Marked.mk .inserted)

/-- The items of a list of blocks with their marks. -/
def listingOf (blocks : List (Block α)) : List (Marked α) := blocks.flatMap Block.listing

/-- No blocks list nothing. -/
@[simp] theorem listingOf_nil : listingOf ([] : List (Block α)) = [] := rfl

/-- The first block is listed in front of the others. -/
@[simp] theorem listingOf_cons (block : Block α) (blocks : List (Block α)) :
    listingOf (block :: blocks) = block.listing ++ listingOf blocks := rfl

/-- The old sequence of two listings, one behind the other. -/
@[simp] theorem oldItems_append (first second : List (Marked α)) :
    oldItems (first ++ second) = oldItems first ++ oldItems second := by simp [oldItems]

/-- The new sequence of two listings, one behind the other. -/
@[simp] theorem newItems_append (first second : List (Marked α)) :
    newItems (first ++ second) = newItems first ++ newItems second := by simp [newItems]

/-- An equal stretch stands in the old sequence. -/
@[simp] theorem oldItems_equal (items : List α) :
    oldItems (Block.equal items).listing = items := by
  induction items <;> simp_all [oldItems, Block.listing]

/-- An equal stretch stands in the new sequence. -/
@[simp] theorem newItems_equal (items : List α) :
    newItems (Block.equal items).listing = items := by
  induction items <;> simp_all [newItems, Block.listing]

/-- A change has in the old sequence what it deletes. -/
@[simp] theorem oldItems_change (deleted inserted : List α) :
    oldItems (Block.change deleted inserted).listing = deleted := by
  simp [oldItems, Block.listing, List.filter_map, Function.comp_def]

/-- A change has in the new sequence what it inserts. -/
@[simp] theorem newItems_change (deleted inserted : List α) :
    newItems (Block.change deleted inserted).listing = inserted := by
  simp [newItems, Block.listing, List.filter_map, Function.comp_def]

/-- A run put in front of blocks puts its old items in front of their old sequence, also where it
becomes part of the first block. -/
theorem oldItems_addRun (run : Run α) (blocks : List (Block α)) :
    oldItems (listingOf (addRun run blocks)) = run.old ++ oldItems (listingOf blocks) := by
  unfold addRun
  split <;> simp [Run.old]

/-- A run put in front of blocks puts its new items in front of their new sequence, also where it
becomes part of the first block. -/
theorem newItems_addRun (run : Run α) (blocks : List (Block α)) :
    newItems (listingOf (addRun run blocks)) = run.new ++ newItems (listingOf blocks) := by
  unfold addRun
  split <;> simp [Run.new]

/-- The blocks of a script list its old sequence. -/
theorem oldItems_blocks (script : List (Run α)) :
    oldItems (listingOf (blocks script)) = oldOf script := by
  induction script with
  | nil => rfl
  | cons run script inductionHypothesis =>
    rw [oldOf_cons, ← inductionHypothesis]
    exact oldItems_addRun run (blocks script)

/-- The blocks of a script list its new sequence. -/
theorem newItems_blocks (script : List (Run α)) :
    newItems (listingOf (blocks script)) = newOf script := by
  induction script with
  | nil => rfl
  | cons run script inductionHypothesis =>
    rw [newOf_cons, ← inductionHypothesis]
    exact newItems_addRun run (blocks script)

/-- Blocks in which every change changes something and no equal stretch follows another. -/
inductive Alternate : List (Block α) → Prop where
  | nil : Alternate []
  | equal (items : List α) : Alternate [.equal items]
  | change {deleted inserted : List α} {rest : List (Block α)}
      (effective : deleted ++ inserted ≠ []) (later : Alternate rest) :
      Alternate (.change deleted inserted :: rest)
  | equalThenChange (items : List α) {deleted inserted : List α} {rest : List (Block α)}
      (effective : deleted ++ inserted ≠ []) (later : Alternate rest) :
      Alternate (.equal items :: .change deleted inserted :: rest)

/-- An effective run put in front of alternating blocks leaves them alternating.

A run becomes part of a first block of its own sort. Otherwise it begins a new block: an equal
stretch, which then stands in front of a change, or a change, which changes something because the
run is effective. -/
theorem Alternate.addRun {run : Run α} {blocks : List (Block α)} (effective : run.Effective)
    (alternate : Alternate blocks) : Alternate (addRun run blocks) := by
  cases run with
  | equal items =>
    cases alternate with
    | nil => exact .equal items
    | equal later => exact .equal (items ++ later)
    | change changed rest => exact .equalThenChange items changed rest
    | equalThenChange later changed rest => exact .equalThenChange (items ++ later) changed rest
  | delete items =>
    have some : items ≠ [] := effective
    cases alternate with
    | nil => exact .change (by simpa using some) .nil
    | equal later => exact .change (by simpa using some) (.equal later)
    | change changed rest => exact .change (by simp [some]) rest
    | equalThenChange later changed rest =>
      exact .change (by simpa using some) (.equalThenChange later changed rest)
  | insert items =>
    have some : items ≠ [] := effective
    cases alternate with
    | nil => exact .change (by simpa using some) .nil
    | equal later => exact .change (by simpa using some) (.equal later)
    | change changed rest => exact .change (by simp [some]) rest
    | equalThenChange later changed rest =>
      exact .change (by simpa using some) (.equalThenChange later changed rest)

/-- The blocks of a script with effective runs alternate. -/
theorem blocks_alternate {script : List (Run α)} (effective : ∀ run ∈ script, run.Effective) :
    Alternate (blocks script) := by
  induction script with
  | nil => exact .nil
  | cons run script inductionHypothesis =>
    rw [List.forall_mem_cons] at effective
    exact (inductionHypothesis effective.2).addRun effective.1

end TreeDelta.LineDiff
