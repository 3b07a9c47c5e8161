import Mathlib.Data.List.Basic
import TreeDelta.LineDiff.Text
import TreeDelta.Proofs.LineDiff.Listing

/-!
# Line diffs are excerpts

A line diff shows a listing of both outlines in part: every line that was deleted or inserted, and
of the lines that were kept those that are at most `context` lines away from such a line. Where
lines between two shown ones are left out, a line of three points stands instead.

Hunks are made by cutting equal stretches: the first, the last and those between two changes each in
their own way. Between two changes a line of an equal stretch is near if it is near to the end of
the change before or to the beginning of the change behind it; at the beginning and the end only one
of the two is there. How the lines were matched is of no importance for this: the blocks of every
script with effective runs are shown in this way.

An excerpt is defined place by place. To compare it with hunks it is written line after line; then
all that has to be known about the lines before is whether the last one was shown, or lines have
been left out since the last shown one.
-/

namespace TreeDelta.LineDiff

/-! ## Excerpts -/

section Near

variable {α : Type}

/-- Whether the item at a place of a listing is a change, or at most `context` places away from
one. -/
def Near (context : Nat) (listing : List (Marked α)) (place : Nat) : Prop :=
  ∃ other ∈ listing.zipIdx,
    other.1.mark ≠ .kept ∧ place ≤ other.2 + context ∧ other.2 ≤ place + context

instance (context : Nat) (listing : List (Marked α)) : DecidablePred (Near context listing) :=
  fun place => by unfold Near; infer_instance

/-- Near is a statement about places: at one of those at most `context` away stands a change. -/
theorem near_iff {context : Nat} {listing : List (Marked α)} {place : Nat} :
    Near context listing place ↔
      ∃ other line, listing[other]? = some line ∧ line.mark ≠ .kept
        ∧ place ≤ other + context ∧ other ≤ place + context := by
  constructor
  · rintro ⟨⟨line, other⟩, present, changed, close⟩
    exact ⟨other, line, List.mem_zipIdx_iff_getElem?.mp present, changed, close⟩
  · rintro ⟨other, line, present, changed, close⟩
    exact ⟨(line, other), List.mem_zipIdx_iff_getElem?.mpr present, changed, close⟩

/-- A change is near to itself. -/
theorem near_change {context : Nat} {listing : List (Marked α)} {place : Nat} {line : Marked α}
    (present : listing[place]? = some line) (changed : line.mark ≠ .kept) :
    Near context listing place :=
  near_iff.mpr ⟨place, line, present, changed, Nat.le_add_right .., Nat.le_add_right ..⟩

/-- Without a change nothing is near to one. -/
theorem not_near {context : Nat} {listing : List (Marked α)}
    (unchanged : ∀ line ∈ listing, line.mark = .kept) (place : Nat) :
    ¬ Near context listing place := by
  intro near
  obtain ⟨other, line, present, changed, -⟩ := near_iff.mp near
  exact changed (unchanged line (List.mem_of_getElem? present))

/-- In a stretch of kept items, those near to the change before it and to the change behind it are
near to a change.

The change that a place is near to stands before the stretch or behind it. The last item before is a
change and closest on that side, the first item behind on the other, so only these two have to be
asked. -/
theorem near_in_stretch {context : Nat} {before stretch after : List (Marked α)} {place : Nat}
    (unchanged : ∀ line ∈ stretch, line.mark = .kept)
    (ends : ∀ line ∈ before.getLast?, line.mark ≠ .kept)
    (begins : ∀ line ∈ after.head?, line.mark ≠ .kept) (inside : place < stretch.length) :
    Near context (before ++ (stretch ++ after)) (before.length + place) ↔
      (before ≠ [] ∧ place < context) ∨ (after ≠ [] ∧ stretch.length ≤ place + context) := by
  rw [near_iff]
  constructor
  · rintro ⟨other, line, present, changed, above, below⟩
    by_cases early : other < before.length
    · left
      constructor
      · rintro rfl
        simp at early
      · omega
    by_cases late : other < before.length + stretch.length
    · rw [List.getElem?_append_right (Nat.le_of_not_lt early),
        List.getElem?_append_left (by omega)] at present
      exact (changed (unchanged line (List.mem_of_getElem? present))).elim
    · right
      constructor
      · rintro rfl
        have bound := List.getElem?_eq_some_iff.mp present
        obtain ⟨bound, -⟩ := bound
        simp at bound
        omega
      · omega
  · rintro (⟨some, close⟩ | ⟨some, close⟩)
    · have positive := List.length_pos_iff.mpr some
      refine ⟨before.length - 1, before.getLast some, ?_, ends _ ?_, by omega, by omega⟩
      · rw [List.getElem?_append_left (by omega), ← List.getLast?_eq_getElem?]
        exact List.getLast?_eq_some_getLast some
      · exact List.getLast?_eq_some_getLast some
    · refine ⟨before.length + stretch.length, after.head some, ?_, begins _ ?_, by omega, by omega⟩
      · rw [← List.append_assoc, List.getElem?_append_right (by simp)]
        simp [List.head?_eq_some_head some, ← List.head?_eq_getElem?]
      · exact List.head?_eq_some_head some

end Near

/-- The character that stands in front of a line. -/
def Mark.sign : Mark → Char
  | .kept => ' '
  | .deleted => '-'
  | .inserted => '+'

/-- A line of a listing as it is shown. -/
def Marked.text (line : Marked (List Char)) : List Char := markedLine line.mark.sign line.item

/-- Whether something is shown before a place, but not immediately before it. -/
def AfterGap (shown : Nat → Prop) (place : Nat) : Prop :=
  (∃ earlier < place, shown earlier) ∧ ¬ shown (place - 1)

instance (shown : Nat → Prop) [DecidablePred shown] (place : Nat) :
    Decidable (AfterGap shown place) := by
  unfold AfterGap
  infer_instance

/-- What is shown for the line at a place: nothing, the line, or the line behind one of three
points. -/
def shownText (shown : Nat → Prop) [DecidablePred shown] (line : Marked (List Char) × Nat) :
    List Char :=
  if shown line.2 then (if AfterGap shown line.2 then gapLine else []) ++ line.1.text else []

/-- The part of a listing that is shown: the lines near to a change, and a line of three points
where lines have been left out between two of them. -/
def excerpt (context : Nat) (listing : List (Marked (List Char))) : List Char :=
  listing.zipIdx.flatMap (shownText (Near context listing))

/-! ## Writing an excerpt line after line -/

/-- How far the writing of an excerpt has come. -/
inductive Progress where
  /-- No line has been shown. -/
  | unbegun
  /-- The last line has been shown. -/
  | inside
  /-- Lines have been left out since one was shown. -/
  | skipping
  deriving DecidableEq

/-- What is written before the next line that is shown. -/
def Progress.gap : Progress → List Char
  | .skipping => gapLine
  | _ => []

/-- How far the writing has come when a line is left out. -/
def Progress.skip : Progress → Progress
  | .unbegun => .unbegun
  | _ => .skipping

/-- Leaving out a second line makes no difference any more. -/
@[simp] theorem skip_skip (progress : Progress) : progress.skip.skip = progress.skip := by
  cases progress <;> rfl

/-- The shown lines of the rest of a listing, from a place on. -/
def write (shown : Nat → Prop) [DecidablePred shown] :
    Progress → Nat → List (Marked (List Char)) → List Char
  | _, _, [] => []
  | progress, place, line :: rest =>
    if shown place then progress.gap ++ line.text ++ write shown .inside (place + 1) rest
    else write shown progress.skip (place + 1) rest

variable {shown : Nat → Prop} [DecidablePred shown]

/-- What the lines before a place say about the progress at it. -/
def Progress.At (shown : Nat → Prop) (place : Nat) : Progress → Prop
  | .unbegun => ∀ earlier < place, ¬ shown earlier
  | .inside => 0 < place ∧ shown (place - 1)
  | .skipping => AfterGap shown place

/-- Before the next shown line stands a line of three points exactly behind a gap. -/
theorem Progress.At.gap_eq {progress : Progress} {place : Nat} (reached : progress.At shown place) :
    progress.gap = if AfterGap shown place then gapLine else [] := by
  cases progress with
  | unbegun =>
    have fresh : ¬ AfterGap shown place := fun ⟨⟨earlier, before, seen⟩, _⟩ =>
      reached earlier before seen
    rw [if_neg fresh]
    rfl
  | inside =>
    have close : ¬ AfterGap shown place := fun gap => gap.2 reached.2
    rw [if_neg close]
    rfl
  | skipping =>
    have gap : AfterGap shown place := reached
    rw [if_pos gap]
    rfl

/-- Showing the line at a place or leaving it out leads to the progress at the next place. -/
theorem Progress.At.step {progress : Progress} {place : Nat} (reached : progress.At shown place) :
    (if shown place then Progress.inside else progress.skip).At shown (place + 1) := by
  split
  next seen => exact ⟨Nat.succ_pos place, seen⟩
  next hidden =>
    cases progress with
    | unbegun =>
      intro earlier before
      rcases Nat.lt_succ_iff_lt_or_eq.mp before with early | rfl
      · exact reached earlier early
      · exact hidden
    | inside => exact ⟨⟨place - 1, by omega, reached.2⟩, hidden⟩
    | skipping =>
      obtain ⟨⟨earlier, before, seen⟩, -⟩ := reached
      exact ⟨⟨earlier, Nat.lt_succ_of_lt before, seen⟩, hidden⟩

/-- Line after line, the same is written as place by place. -/
theorem write_eq {progress : Progress} {place : Nat} (reached : progress.At shown place)
    (lines : List (Marked (List Char))) :
    write shown progress place lines = (lines.zipIdx place).flatMap (shownText shown) := by
  induction lines generalizing progress place with
  | nil => rfl
  | cons line rest inductionHypothesis =>
    have next := reached.step
    rw [write, List.zipIdx_cons, List.flatMap_cons, shownText]
    split at next
    next seen => rw [if_pos seen, if_pos seen, reached.gap_eq, inductionHypothesis next]
    next hidden => rw [if_neg hidden, if_neg hidden, List.nil_append, inductionHypothesis next]

/-- An excerpt is what is written line after line from the first place on, where no line has been
shown. -/
theorem excerpt_eq_write (context : Nat) (listing : List (Marked (List Char))) :
    excerpt context listing = write (Near context listing) .unbegun 0 listing := by
  have fresh : Progress.At (Near context listing) 0 .unbegun :=
    fun earlier before => (Nat.not_lt_zero earlier before).elim
  exact (write_eq fresh listing).symm

/-- What holds at the places of several lines holds at the place of the first and at those of the
others. -/
theorem at_first_and_others (holds : Nat → Prop) {place : Nat} {line : Marked (List Char)}
    {lines : List (Marked (List Char))}
    (all : ∀ offset < (line :: lines).length, holds (place + offset)) :
    holds place ∧ ∀ offset < lines.length, holds (place + 1 + offset) := by
  constructor
  · exact all 0 (Nat.succ_pos _)
  · intro offset bound
    have here := all (offset + 1) (Nat.succ_lt_succ bound)
    rwa [← Nat.add_assoc, Nat.add_right_comm] at here

/-- Lines that are all shown are written one behind the other. -/
theorem write_inside {place : Nat} {lines : List (Marked (List Char))}
    (seen : ∀ offset < lines.length, shown (place + offset)) (rest : List (Marked (List Char))) :
    write shown .inside place (lines ++ rest)
      = lines.flatMap Marked.text ++ write shown .inside (place + lines.length) rest := by
  induction lines generalizing place with
  | nil => rfl
  | cons line lines inductionHypothesis =>
    obtain ⟨first, later⟩ := at_first_and_others shown seen
    rw [List.cons_append, write, if_pos first, inductionHypothesis later]
    simp [Progress.gap, Nat.add_assoc, Nat.add_comm 1]

/-- The first of several lines that are shown is behind the gap, if there is one. -/
theorem write_shown (progress : Progress) {place : Nat} {lines : List (Marked (List Char))}
    (some : lines ≠ []) (seen : ∀ offset < lines.length, shown (place + offset))
    (rest : List (Marked (List Char))) :
    write shown progress place (lines ++ rest)
      = progress.gap ++ lines.flatMap Marked.text
        ++ write shown .inside (place + lines.length) rest := by
  cases lines with
  | nil => exact (some rfl).elim
  | cons line lines =>
    have whole := write_inside seen rest
    rw [List.cons_append, write, if_pos (at_first_and_others shown seen).1] at whole ⊢
    simpa [Progress.gap] using congrArg (progress.gap ++ ·) whole

/-- Lines that are left out are not written. -/
theorem write_hidden {progress : Progress} {place : Nat} {lines : List (Marked (List Char))}
    (settled : lines ≠ [] ∨ progress.skip = progress)
    (hidden : ∀ offset < lines.length, ¬ shown (place + offset))
    (rest : List (Marked (List Char))) :
    write shown progress place (lines ++ rest)
      = write shown progress.skip (place + lines.length) rest := by
  induction lines generalizing progress place with
  | nil => simp [settled.resolve_left (not_not_intro rfl)]
  | cons line lines inductionHypothesis =>
    obtain ⟨first, later⟩ := at_first_and_others (¬ shown ·) hidden
    have others := inductionHypothesis (.inr (skip_skip progress)) later
    rw [List.cons_append, write, if_neg first, others, skip_skip]
    simp [Nat.add_assoc, Nat.add_comm 1]

/-- If no line is left to be shown, nothing is written. -/
theorem write_nothing {progress : Progress} {place : Nat} {lines : List (Marked (List Char))}
    (hidden : ∀ offset < lines.length, ¬ shown (place + offset)) :
    write shown progress place lines = [] := by
  by_cases none : lines = []
  · rw [none, write]
  · simpa [write] using write_hidden (.inl none) hidden []

/-! ## Hunks as parts of a listing -/

/-- The text of a block is that of the lines that it lists. -/
theorem blockText_eq (block : Block (List Char)) :
    blockText block = block.listing.flatMap Marked.text := by
  cases block with
  | equal lines =>
    rw [blockText, Block.listing, List.flatMap_map]
    rfl
  | change deleted inserted =>
    rw [blockText, Block.listing, List.flatMap_append, List.flatMap_map, List.flatMap_map]
    rfl

/-- A single hunk is shown without a gap. -/
theorem hunksText_single (hunk : List (Block (List Char))) :
    hunksText [hunk] = hunk.flatMap blockText := by
  simp [hunksText, List.intercalate]

/-- Between a hunk and those behind it stands a line of three points. -/
theorem hunksText_cons (hunk : List (Block (List Char))) {hunks : List (List (Block (List Char)))}
    (more : hunks ≠ []) :
    hunksText (hunk :: hunks) = hunk.flatMap blockText ++ gapLine ++ hunksText hunks := by
  cases hunks with
  | nil => exact (more rfl).elim
  | cons next rest => simp [hunksText, List.intercalate]

section Blocks

variable {α : Type}

/-- A hunk keeps its change when it gets another block. -/
theorem hasChange_cons (block : Block α) {current : List (Block α)}
    (changed : hasChange current = true) : hasChange (block :: current) = true := by
  cases current with
  | nil => contradiction
  | cons next rest => cases block <;> rfl

/-- A hunk that gets a change has one. -/
theorem hasChange_change (deleted inserted : List α) (current : List (Block α)) :
    hasChange (.change deleted inserted :: current) = true := by
  cases current <;> rfl

/-- A hunk that has a change is not dropped. -/
theorem divide_ne_nil (context : Nat) {current : List (Block α)}
    (changed : hasChange current = true) (blocks : List (Block α)) :
    divide context current blocks ≠ [] := by
  induction blocks generalizing current with
  | nil => simp [divide, changed]
  | cons block rest inductionHypothesis =>
    cases block with
    | equal items =>
      rw [divide]
      split
      next => exact List.cons_ne_nil _ _
      next => exact inductionHypothesis (hasChange_cons _ changed)
    | change deleted inserted => exact inductionHypothesis (hasChange_cons _ changed)

/-- An equal stretch lists as many lines as it has items. -/
@[simp] theorem equal_listing_length (items : List α) :
    (Block.equal items).listing.length = items.length := List.length_map _

/-- An equal stretch can be listed in two parts. -/
theorem equal_listing_split (count : Nat) (items : List α) :
    (Block.equal items).listing
      = (Block.equal (items.take count)).listing ++ (Block.equal (items.drop count)).listing := by
  rw [Block.listing, Block.listing, Block.listing, ← List.map_append, List.take_append_drop]

/-- Every line of an equal stretch is kept. -/
theorem equal_listing_kept (items : List α) :
    ∀ line ∈ (Block.equal items).listing, line.mark = .kept := by
  simp [Block.listing]

/-- No line of a change is kept. -/
theorem change_listing_changed (deleted inserted : List α) :
    ∀ line ∈ (Block.change deleted inserted).listing, line.mark ≠ .kept := by
  intro line present
  rcases List.mem_append.mp present with here | here
  all_goals
    obtain ⟨item, -, rfl⟩ := List.mem_map.mp here
    simp

/-- A change that changes something lists a line. -/
theorem change_listing_ne_nil {deleted inserted : List α} (effective : deleted ++ inserted ≠ []) :
    (Block.change deleted inserted).listing ≠ [] := by
  simpa [Block.listing] using effective

/-- All of a change is near to a change. -/
theorem near_in_change (context : Nat) (before after : List (Marked α))
    (deleted inserted : List α) :
    ∀ offset < (Block.change deleted inserted).listing.length,
      Near context (before ++ ((Block.change deleted inserted).listing ++ after))
        (before.length + offset) := by
  intro offset bound
  have present : (before ++ ((Block.change deleted inserted).listing ++ after))[before.length
      + offset]? = some (Block.change deleted inserted).listing[offset] := by
    rw [List.getElem?_append_right (Nat.le_add_right ..), Nat.add_sub_cancel_left,
      List.getElem?_append_left bound, List.getElem?_eq_getElem bound]
  exact near_change present (change_listing_changed _ _ _ (List.getElem_mem bound))

/-- A change at the end of a listing, as far as it has been read. -/
theorem ends_in_change {deleted inserted : List α} (effective : deleted ++ inserted ≠ [])
    (before : List (Marked α)) :
    ∀ line ∈ (before ++ (Block.change deleted inserted).listing).getLast?, line.mark ≠ .kept := by
  intro line last
  rw [List.getLast?_append_of_ne_nil _ (change_listing_ne_nil effective)] at last
  exact change_listing_changed _ _ line (List.mem_of_getLast? last)

/-- What begins with a change begins with a line that is not kept. -/
theorem begins_with_change {deleted inserted : List α} (effective : deleted ++ inserted ≠ [])
    (after : List (Marked α)) :
    ∀ line ∈ ((Block.change deleted inserted).listing ++ after).head?, line.mark ≠ .kept := by
  intro line first
  rw [List.head?_append_of_ne_nil _ (change_listing_ne_nil effective)] at first
  exact change_listing_changed _ _ line (List.mem_of_head? first)

end Blocks

/-- In an equal stretch, the items near to the change before it and to the one behind it are near
to a change. -/
theorem near_in_equal (context : Nat) {before after : List (Marked (List Char))}
    {items : List (List Char)} (ends : ∀ line ∈ before.getLast?, line.mark ≠ .kept)
    (begins : ∀ line ∈ after.head?, line.mark ≠ .kept) {offset : Nat}
    (bound : offset < items.length) :
    Near context (before ++ ((Block.equal items).listing ++ after)) (before.length + offset) ↔
      (before ≠ [] ∧ offset < context) ∨ (after ≠ [] ∧ items.length ≤ offset + context) := by
  simpa using near_in_stretch (equal_listing_kept items) ends begins (by simpa using bound)

/-- Of an equal stretch that ends a listing, the first lines are shown. -/
theorem write_first {context place : Nat} {items : List (List Char)}
    (near : ∀ offset < items.length, shown (place + offset) ↔ offset < context) :
    write shown .inside place (Block.equal items).listing
      = (Block.equal (items.take context)).listing.flatMap Marked.text := by
  have seen : ∀ offset < (Block.equal (items.take context)).listing.length,
      shown (place + offset) := by
    intro offset bound
    rw [equal_listing_length, List.length_take] at bound
    exact (near offset (by omega)).mpr (by omega)
  have hidden : ∀ offset < (Block.equal (items.drop context)).listing.length,
      ¬ shown (place + (Block.equal (items.take context)).listing.length + offset) := by
    intro offset bound
    rw [equal_listing_length, List.length_drop] at bound
    rw [equal_listing_length, List.length_take, Nat.min_eq_left (by omega), Nat.add_assoc,
      near (context + offset) (by omega)]
    omega
  rw [equal_listing_split context, write_inside seen, write_nothing hidden, List.append_nil]

/-- Of an equal stretch before a change, the last lines are shown.

The stretch is cut where its last `context` items begin. What is in front of the cut is left out,
which leads to the gap, and what is behind it is shown together with the change. -/
theorem write_last (progress : Progress) {context place : Nat} {items : List (List Char)}
    (settled : context < items.length ∨ progress.skip = progress)
    (near : ∀ offset < items.length, shown (place + offset) ↔ items.length ≤ offset + context)
    {lines : List (Marked (List Char))} (some : lines ≠ [])
    (seen : ∀ offset < lines.length, shown (place + items.length + offset))
    (rest : List (Marked (List Char))) :
    write shown progress place ((Block.equal items).listing ++ (lines ++ rest))
      = progress.skip.gap ++ (Block.equal (lastItems context items)).listing.flatMap Marked.text
        ++ lines.flatMap Marked.text
        ++ write shown .inside (place + items.length + lines.length) rest := by
  let count := items.length - context
  have skipped : (Block.equal (items.take count)).listing.length = count := by
    rw [equal_listing_length, List.length_take]
    omega
  have remaining : (Block.equal (items.drop count)).listing.length = items.length - count := by
    rw [equal_listing_length, List.length_drop]
  have hidden : ∀ offset < (Block.equal (items.take count)).listing.length,
      ¬ shown (place + offset) := by
    intro offset bound
    rw [near offset (by omega)]
    omega
  have shownLines : ∀ offset < ((Block.equal (items.drop count)).listing ++ lines).length,
      shown (place + count + offset) := by
    intro offset bound
    rw [List.length_append, remaining] at bound
    by_cases early : offset < items.length - count
    · rw [Nat.add_assoc, near (count + offset) (by omega)]
      omega
    · have behind := seen (offset - (items.length - count)) (by omega)
      rwa [show place + items.length + (offset - (items.length - count)) = place + count + offset
        by omega] at behind
  have left : (Block.equal (items.take count)).listing ≠ [] ∨ progress.skip = progress := by
    refine settled.imp_left fun long none => ?_
    rw [none, List.length_nil] at skipped
    omega
  rw [equal_listing_split count, List.append_assoc, write_hidden left hidden, skipped,
    ← List.append_assoc, write_shown _ (by simp [some]) shownLines, List.flatMap_append,
    List.length_append, remaining,
    show place + count + (items.length - count + lines.length)
      = place + items.length + lines.length by omega, lastItems]
  simp only [List.append_assoc, count]

/-- What is shown of an equal stretch between two changes. -/
def stretchText (context : Nat) (items : List (List Char)) : List Char :=
  if 2 * context < items.length then
    blockText (.equal (items.take context)) ++ gapLine
      ++ blockText (.equal (lastItems context items))
  else blockText (.equal items)

/-- Of an equal stretch between two changes, the first and the last lines are shown, which are all
of them if the stretch is short.

A long stretch is cut behind its first `context` items. These are shown without a gap, and the rest
is a stretch before a change, of which something is left out because the whole was long. Of a short
stretch every line is near to one of the changes. -/
theorem write_stretch {context place : Nat} {items : List (List Char)}
    (near : ∀ offset < items.length,
      shown (place + offset) ↔ offset < context ∨ items.length ≤ offset + context)
    {lines : List (Marked (List Char))} (some : lines ≠ [])
    (seen : ∀ offset < lines.length, shown (place + items.length + offset))
    (rest : List (Marked (List Char))) :
    write shown .inside place ((Block.equal items).listing ++ (lines ++ rest))
      = stretchText context items ++ (lines.flatMap Marked.text
        ++ write shown .inside (place + items.length + lines.length) rest) := by
  by_cases long : 2 * context < items.length
  · have first : (Block.equal (items.take context)).listing.length = context := by
      rw [equal_listing_length, List.length_take]
      omega
    have remaining : (items.drop context).length = items.length - context := List.length_drop
    have shownFirst : ∀ offset < (Block.equal (items.take context)).listing.length,
        shown (place + offset) := by
      intro offset bound
      rw [near offset (by omega)]
      omega
    have nearLater : ∀ offset < (items.drop context).length,
        shown (place + context + offset) ↔ (items.drop context).length ≤ offset + context := by
      intro offset bound
      rw [Nat.add_assoc, near (context + offset) (by omega)]
      omega
    have total : place + context + (items.drop context).length = place + items.length := by omega
    have later := write_last .inside (.inl (by omega)) nearLater some (by rwa [total]) rest
    have last : lastItems context (items.drop context) = lastItems context items := by
      rw [lastItems, lastItems, List.drop_drop, remaining]
      congr 1
      omega
    rw [total, last] at later
    rw [stretchText, if_pos long, equal_listing_split context, List.append_assoc,
      write_inside shownFirst, first, later]
    simp [blockText_eq, Progress.gap, Progress.skip]
  · have all : ∀ offset < (Block.equal items).listing.length, shown (place + offset) := by
      intro offset bound
      rw [equal_listing_length] at bound
      rw [near offset bound]
      omega
    have whole := write_inside all (lines ++ rest)
    rw [equal_listing_length, write_inside seen] at whole
    rw [stretchText, if_neg long, blockText_eq, whole]

/-- A change is not trimmed. -/
theorem trimLast_change (context : Nat) (deleted inserted : List (List Char))
    (rest : List (Block (List Char))) :
    trimLast context (.change deleted inserted :: rest)
      = .change deleted inserted :: trimLast context rest := rfl

/-- An equal stretch before a change is not the last one, so it is not trimmed. -/
theorem trimLast_equal_change (context : Nat) (items deleted inserted : List (List Char))
    (rest : List (Block (List Char))) :
    trimLast context (.equal items :: .change deleted inserted :: rest)
      = .equal items :: .change deleted inserted :: trimLast context rest := rfl

/-- A change becomes part of the hunk that is being made. -/
theorem divide_change (context : Nat) (current : List (Block (List Char)))
    (deleted inserted : List (List Char)) (rest : List (Block (List Char))) :
    divide context current (.change deleted inserted :: rest)
      = divide context (.change deleted inserted :: current) rest := rfl

/-- What hunks show of an equal stretch between two changes, whatever they show behind the second
one. -/
theorem divide_stretch {context : Nat} {deleted inserted : List (List Char)}
    {later : List (Block (List Char))} {tail : List Char}
    (behind : ∀ current, hunksText (divide context (.change deleted inserted :: current) later)
      = (Block.change deleted inserted :: current).reverse.flatMap blockText ++ tail)
    (items : List (List Char)) (current : List (Block (List Char))) :
    hunksText (divide context current (.equal items :: .change deleted inserted :: later))
      = current.reverse.flatMap blockText
        ++ (stretchText context items ++ (blockText (.change deleted inserted) ++ tail)) := by
  rw [divide, stretchText]
  by_cases long : 2 * context < items.length
  · have more : divide context [.equal (lastItems context items)]
        (.change deleted inserted :: later) ≠ [] :=
      divide_ne_nil context (hasChange_change ..) _
    rw [if_pos long, if_pos long, hunksText_cons _ more, divide_change, behind]
    simp
  · rw [if_neg long, if_neg long, divide_change, behind]
    simp

/-- Behind a change, the hunks show what an excerpt shows, both of the blocks that the hunk has
already and of those that follow.

The induction follows the alternating blocks, with one statement on what is written of each sort of
block. An equal stretch at the end shows its first lines only, one before a change its first and
last ones. -/
theorem divide_text (context : Nat) {rest : List (Block (List Char))} (alternate : Alternate rest)
    (current : List (Block (List Char))) (before : List (Marked (List Char)))
    (changed : hasChange current = true) (some : before ≠ [])
    (ends : ∀ line ∈ before.getLast?, line.mark ≠ .kept) :
    hunksText (divide context current (trimLast context rest))
      = current.reverse.flatMap blockText
        ++ write (Near context (before ++ listingOf rest)) .inside before.length
          (listingOf rest) := by
  -- Of what has been read, `before`, no more is needed than that it ends in a change.
  induction alternate generalizing current before with
  | nil => simp [trimLast, divide, changed, hunksText_single, write]
  | equal items =>
    have near : ∀ offset < items.length,
        Near context (before ++ listingOf [.equal items]) (before.length + offset)
          ↔ offset < context := by
      intro offset bound
      rw [listingOf_cons, near_in_equal context ends (by simp) bound]
      simp [some]
    have short : ¬ 2 * context < (items.take context).length := by
      rw [List.length_take]
      omega
    have written := write_first near
    rw [trimLast, divide, if_neg short, divide, if_pos (hasChange_cons _ changed),
      hunksText_single, List.reverse_cons, List.flatMap_append, List.flatMap_singleton,
      blockText_eq, ← written]
    simp
  | @change deleted inserted rest effective later inductionHypothesis =>
    have whole := write_inside
      (near_in_change context before (listingOf rest) deleted inserted) (listingOf rest)
    have next := inductionHypothesis (.change deleted inserted :: current)
      (before ++ (Block.change deleted inserted).listing) (hasChange_cons _ changed)
      (by simp [some]) (ends_in_change effective before)
    simp only [List.append_assoc, List.length_append] at next
    rw [listingOf_cons, whole, trimLast_change, divide_change, next]
    simp [blockText_eq]
  | @equalThenChange items deleted inserted rest effective later inductionHypothesis =>
    -- The whole listing gets a name, since what is shown refers to it while its parts are written.
    obtain ⟨listing, whole⟩ : ∃ listing, listing = before ++ ((Block.equal items).listing
        ++ ((Block.change deleted inserted).listing ++ listingOf rest)) := ⟨_, rfl⟩
    have near : ∀ offset < items.length,
        Near context listing (before.length + offset)
          ↔ offset < context ∨ items.length ≤ offset + context := by
      intro offset bound
      rw [whole, near_in_equal context ends (begins_with_change effective _) bound]
      simp [some, change_listing_ne_nil effective]
    have seen : ∀ offset < (Block.change deleted inserted).listing.length,
        Near context listing (before.length + items.length + offset) := by
      simpa [whole] using near_in_change context (before ++ (Block.equal items).listing)
        (listingOf rest) deleted inserted
    have next (current : List (Block (List Char))) :=
      inductionHypothesis (.change deleted inserted :: current)
        (before ++ (Block.equal items).listing ++ (Block.change deleted inserted).listing)
        (hasChange_change ..) (by simp [some]) (ends_in_change effective _)
    simp only [List.append_assoc, List.length_append, equal_listing_length, ← whole] at next
    have written := write_stretch near (change_listing_ne_nil effective) seen (listingOf rest)
    rw [trimLast_equal_change, divide_stretch next, listingOf_cons, listingOf_cons, ← whole,
      written, blockText_eq, Nat.add_assoc]

/-- The hunks of alternating blocks show an excerpt of their listing.

Everything behind the first change is `divide_text`. What is left are the cases of what stands in
front of it: nothing, or an equal stretch, of which the last lines are shown without a gap. -/
theorem hunks_show_excerpt (context : Nat) {blocks : List (Block (List Char))}
    (alternate : Alternate blocks) :
    hunksText (divide context [] (trimLast context (trimFirst context blocks)))
      = excerpt context (listingOf blocks) := by
  rw [excerpt_eq_write]
  cases alternate with
  | nil => rfl
  | equal items =>
    have unchanged : ∀ line ∈ listingOf [Block.equal items], line.mark = .kept := by
      simpa using equal_listing_kept items
    have short : ¬ 2 * context < ((lastItems context items).take context).length := by
      rw [List.length_take]
      omega
    rw [write_nothing fun _ _ => not_near unchanged _, trimFirst, trimLast, divide, if_neg short]
    rfl
  | @change deleted inserted rest effective later =>
    have some := change_listing_ne_nil effective
    have first := write_shown .unbegun some
      (near_in_change context [] (listingOf rest) deleted inserted) (listingOf rest)
    have behind := divide_text context later [.change deleted inserted]
      (Block.change deleted inserted).listing (hasChange_change ..) some
      (by simpa using ends_in_change effective [])
    rw [trimFirst, trimLast_change, divide_change, behind, listingOf_cons]
    · simpa [Progress.gap, blockText_eq] using first.symm
    · simp
  | @equalThenChange items deleted inserted rest effective later =>
    have near : ∀ offset < items.length,
        Near context (listingOf (.equal items :: .change deleted inserted :: rest)) (0 + offset)
          ↔ items.length ≤ offset + context := by
      intro offset bound
      have nothing : ∀ line ∈ ([] : List (Marked (List Char))).getLast?, line.mark ≠ .kept := by
        simp
      have here := near_in_equal context nothing (begins_with_change effective (listingOf rest))
        bound
      simpa [change_listing_ne_nil effective] using here
    have seen : ∀ offset < (Block.change deleted inserted).listing.length,
        Near context (listingOf (.equal items :: .change deleted inserted :: rest))
          (0 + items.length + offset) := by
      simpa using near_in_change context (Block.equal items).listing (listingOf rest)
        deleted inserted
    have first := write_last .unbegun (.inr rfl) near
      (change_listing_ne_nil effective) seen (listingOf rest)
    have behind := divide_text context later
      [.change deleted inserted, .equal (lastItems context items)]
      ((Block.equal items).listing ++ (Block.change deleted inserted).listing)
      (hasChange_change ..) (by simp [change_listing_ne_nil effective]) (ends_in_change effective _)
    have short : ¬ 2 * context < (lastItems context items).length := by
      rw [lastItems, List.length_drop]
      omega
    rw [trimFirst, trimLast_equal_change, divide, if_neg short, divide_change, behind]
    simpa [blockText_eq, Progress.gap, Progress.skip] using first.symm

example : hunksText (divide 0 [] (trimLast 0 (trimFirst 0 [.change [['a']] [], .equal [['b']],
    .change [] [['c']]]))) = "- a\n...\n+ c\n".toList := by decide

end TreeDelta.LineDiff
