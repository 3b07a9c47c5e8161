import TreeDelta.Proofs.LineDiff.Excerpt

/-!
# Line diffs of outlines

The outlines of two trees, with a line feed behind each, are cut into lines that end with what ends
them and hold nothing else that ends a line. The line diff of the trees is an excerpt of a listing
of these lines. It is empty if and only if the outlines are the same: then the listing has no
change, and otherwise a changed line is shown in every context.
-/

namespace TreeDelta.LineDiff

/-! ## Lines -/

/-- A character put in front of the first line stands in front of the whole text. -/
@[simp] theorem flatten_addToFirst (c : Char) (lines : List (List Char)) :
    (addToFirst c lines).flatten = c :: lines.flatten := by
  cases lines <;> rfl

/-- The lines of a text make up the text. -/
@[simp] theorem flatten_cutLines (text : List Char) : (cutLines text).flatten = text := by
  induction text using cutLines.induct with
  | case1 => rfl
  | case2 rest inductionHypothesis => simp [cutLines, inductionHypothesis]
  | case3 c rest other ends inductionHypothesis =>
    rw [cutLines, if_pos ends]
    · simp [inductionHypothesis]
    · exact other
  | case4 c rest other ordinary inductionHypothesis =>
    rw [cutLines, if_neg ordinary]
    · simp [inductionHypothesis]
    · exact other

/-- A line ends with a line feed, a carriage return, or both in this order, and holds none of them
before. -/
def Terminated (line : List Char) : Prop :=
  ∃ body ending, line = body ++ ending ∧ (∀ c ∈ body, ¬ (c = '\n' ∨ c = '\r'))
    ∧ ending ∈ [['\n'], ['\r'], ['\r', '\n']]

/-- A line stays terminated with one more character in front that ends no line. -/
theorem Terminated.cons {line : List Char} (terminated : Terminated line) {c : Char}
    (ordinary : ¬ (c = '\n' ∨ c = '\r')) : Terminated (c :: line) := by
  obtain ⟨body, ending, rfl, plain, ends⟩ := terminated
  exact ⟨c :: body, ending, rfl, List.forall_mem_cons.mpr ⟨ordinary, plain⟩, ends⟩

/-- What ends a text ends each text that it begins with one character more. -/
theorem last_of_rest {c : Char} {rest : List Char} (last : ∀ d ∈ (c :: rest).getLast?, d = '\n') :
    ∀ d ∈ rest.getLast?, d = '\n' := by
  intro d ends
  apply last
  rw [List.getLast?_cons, Option.mem_def.mp ends]
  rfl

/-- The lines of a text that does not end otherwise than with a line feed are terminated.

The induction follows the cutting. A break makes a line that holds nothing else. Any other character
is put in front of the first line of the rest, which ends in a break already; there is such a line,
because the text does not end with this character. -/
theorem cutLines_terminated {text : List Char} (last : ∀ c ∈ text.getLast?, c = '\n') :
    ∀ line ∈ cutLines text, Terminated line := by
  induction text using cutLines.induct with
  | case1 => simp [cutLines]
  | case2 rest inductionHypothesis =>
    rw [cutLines, List.forall_mem_cons]
    constructor
    · exact ⟨[], ['\r', '\n'], rfl, by simp, by simp⟩
    · exact inductionHypothesis (last_of_rest (last_of_rest last))
  | case3 c rest other ends inductionHypothesis =>
    rw [cutLines, if_pos ends, List.forall_mem_cons]
    · constructor
      · refine ⟨[], [c], rfl, by simp, ?_⟩
        rcases ends with rfl | rfl <;> simp
      · exact inductionHypothesis (last_of_rest last)
    · exact other
  | case4 c rest other ordinary inductionHypothesis =>
    rw [cutLines, if_neg ordinary]
    · have later := inductionHypothesis (last_of_rest last)
      cases lines : cutLines rest with
      | nil =>
        -- Without a further line the text would end with this character, which ends no line.
        have none : rest = [] := by
          have whole := flatten_cutLines rest
          rw [lines] at whole
          exact whole.symm
        subst none
        exact (ordinary (.inl (last c rfl))).elim
      | cons first others =>
        rw [lines, List.forall_mem_cons] at later
        rw [addToFirst, List.forall_mem_cons]
        exact ⟨later.1.cons ordinary, later.2⟩
    · exact other

/-! ## Empty excerpts -/

/-- An excerpt shows nothing if and only if there is no change. -/
theorem excerpt_eq_nil_iff (context : Nat) (listing : List (Marked (List Char))) :
    excerpt context listing = [] ↔ ∀ line ∈ listing, line.mark = .kept := by
  constructor
  · intro empty line present
    obtain ⟨place, bound, rfl⟩ := List.mem_iff_getElem.mp present
    by_contra changed
    have there : listing[place]? = some listing[place] := List.getElem?_eq_getElem bound
    have near : Near context listing place := near_change there changed
    have nothing := List.flatMap_eq_nil_iff.mp empty (listing[place], place)
      (List.mem_zipIdx_iff_getElem?.mpr there)
    rw [shownText, if_pos near] at nothing
    simp [Marked.text, markedLine] at nothing
  · intro unchanged
    rw [excerpt_eq_write]
    exact write_nothing fun _ _ => not_near unchanged _

section Unchanged

variable {α : Type}

/-- A listing without a change has the same old and new sequence. -/
theorem oldItems_eq_newItems {listing : List (Marked α)}
    (unchanged : ∀ line ∈ listing, line.mark = .kept) : oldItems listing = newItems listing := by
  have old : listing.filter (·.mark ≠ .inserted) = listing :=
    List.filter_eq_self.mpr fun line present => by simp [unchanged line present]
  have new : listing.filter (·.mark ≠ .deleted) = listing :=
    List.filter_eq_self.mpr fun line present => by simp [unchanged line present]
  rw [oldItems, newItems, old, new]

/-- Every item of a listing is in one of its sequences. -/
theorem mem_items {listing : List (Marked α)} {line : Marked α} (present : line ∈ listing) :
    line.item ∈ oldItems listing ∨ line.item ∈ newItems listing := by
  by_cases added : line.mark = .inserted
  · right
    exact List.mem_map_of_mem (List.mem_filter.mpr ⟨present, by simp [added]⟩)
  · left
    exact List.mem_map_of_mem (List.mem_filter.mpr ⟨present, by simp [added]⟩)

/-- Nothing is changed in the blocks of two equal sequences. -/
theorem blocks_unchanged [DecidableEq α] (items : List α) :
    ∀ line ∈ listingOf (blocks (compact (matching items items))), line.mark = .kept := by
  rw [compact_matching_self]
  cases items with
  | nil => simp [equalRun, blocks]
  | cons first rest => simpa [equalRun, blocks, addRun] using equal_listing_kept (first :: rest)

/-- Nothing is changed between two sequences exactly if they are the same. -/
theorem unchanged_iff [DecidableEq α] (old new : List α) :
    (∀ line ∈ listingOf (blocks (compact (matching old new))), line.mark = .kept) ↔ old = new := by
  constructor
  · intro unchanged
    have relates := compact_matching_relates old new
    calc old
        _ = oldItems (listingOf (blocks (compact (matching old new)))) :=
          ((oldItems_blocks _).trans relates.old_eq).symm
        _ = newItems (listingOf (blocks (compact (matching old new)))) :=
          oldItems_eq_newItems unchanged
        _ = new := (newItems_blocks _).trans relates.new_eq
  · rintro rfl
    exact blocks_unchanged old

end Unchanged

/-! ## The diff of two trees -/

/-- The outline of a tree with a line feed behind it. -/
def endedOutline (options : Outline.Options) (tree : SyntaxTree) : List Char :=
  Outline.render options 0 tree ++ ['\n']

/-- The line diff of two trees shows, in every context, an excerpt of one listing of the lines of
their outlines, and nothing if and only if the outlines are the same.

The listing is that of the blocks of the compacted matching, which relates the lines of both
outlines. Its blocks alternate, so what the hunks show of them is an excerpt. That is empty exactly
if every line is kept; then both sequences of lines are the same, and so are the texts. -/
theorem diff_is_excerpt (options : Outline.Options) (old new : SyntaxTree) :
    ∃ listing : List (Marked (List Char)),
      oldItems listing = cutLines (endedOutline options old)
      ∧ newItems listing = cutLines (endedOutline options new)
      ∧ (oldItems listing).flatten = endedOutline options old
      ∧ (newItems listing).flatten = endedOutline options new
      ∧ (∀ line ∈ listing, Terminated line.item)
      ∧ ∀ context, ofTrees options context old new = String.ofList (excerpt context listing)
        ∧ (ofTrees options context old new = "" ↔
          Outline.text options old = Outline.text options new) := by
  let oldLines := cutLines (endedOutline options old)
  let newLines := cutLines (endedOutline options new)
  have relates := compact_matching_relates oldLines newLines
  let script := compact (matching oldLines newLines)
  let listing := listingOf (blocks script)
  have oldEq : oldItems listing = oldLines := (oldItems_blocks script).trans relates.old_eq
  have newEq : newItems listing = newLines := (newItems_blocks script).trans relates.new_eq
  have shows (context : Nat) : ofTrees options context old new
      = String.ofList (excerpt context listing) :=
    congrArg String.ofList (hunks_show_excerpt context (blocks_alternate relates.effective))
  refine ⟨listing, oldEq, newEq, by rw [oldEq, flatten_cutLines], by rw [newEq, flatten_cutLines],
    ?_, fun context => ⟨shows context, ?_⟩⟩
  · intro line present
    rcases mem_items present with here | here
    · rw [oldEq] at here
      exact cutLines_terminated (by simp [endedOutline]) _ here
    · rw [newEq] at here
      exact cutLines_terminated (by simp [endedOutline]) _ here
  · rw [shows, String.ofList_eq_empty_iff, excerpt_eq_nil_iff]
    constructor
    · intro unchanged
      have same : oldLines = newLines := by rw [← oldEq, ← newEq, oldItems_eq_newItems unchanged]
      have outlines := congrArg List.flatten same
      simp only [oldLines, newLines, flatten_cutLines, endedOutline] at outlines
      exact congrArg String.ofList (List.append_cancel_right outlines)
    · intro same
      have outlines : oldLines = newLines := by
        have texts := String.ofList_inj.mp same
        simp only [oldLines, newLines, endedOutline, texts]
      have unchanged := blocks_unchanged newLines
      simpa only [listing, script, outlines] using unchanged

/-- Texts with the same lines are the same. -/
theorem cut_lines_injective {first second : List Char} (same : cutLines first = cutLines second) :
    first = second := by
  rw [← flatten_cutLines first, same, flatten_cutLines]

/-- The line diff of two trees is empty in any context exactly if their outlines are the same. -/
theorem of_trees_empty_iff (options : Outline.Options) (context : Nat) (old new : SyntaxTree) :
    ofTrees options context old new = "" ↔ Outline.text options old = Outline.text options new := by
  have relates := compact_matching_relates (cutLines (endedOutline options old))
    (cutLines (endedOutline options new))
  have shows := congrArg String.ofList
    (hunks_show_excerpt context (blocks_alternate relates.effective))
  have lines : cutLines (endedOutline options old) = cutLines (endedOutline options new) ↔
      Outline.render options 0 old = Outline.render options 0 new :=
    ⟨fun same => List.append_cancel_right (cut_lines_injective same),
      fun same => by rw [endedOutline, same, endedOutline]⟩
  rw [Outline.text, Outline.text, String.ofList_inj, ← lines, ← unchanged_iff,
    ← excerpt_eq_nil_iff context, ← String.ofList_eq_empty_iff, ← shows]
  rfl

end TreeDelta.LineDiff
