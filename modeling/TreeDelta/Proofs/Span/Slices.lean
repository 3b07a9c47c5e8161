import TreeDelta.Proofs.Span.Starts
import TreeDelta.Proofs.Text.Lines

/-!
# The text of a node

The offset of a location is found in characters and counted in bytes. Wherever the location stands,
in the text or outside, the offset is one between two characters of the text, so a text can be cut
there. The end of a stretch is moved behind its beginning before the cut, so the two offsets are in
order as well, and no cut that is made for the text of a node, or for the marks around it, can fail.

What is cut out for the text of a node and what stands between the marks is the same part of the
text. In front of it is what stands in front of the beginning.
-/

namespace TreeDelta

namespace Text

/-- A line takes no less than its content. -/
theorem line_content_length_le (line : List Char) : (lineContent line).length ≤ line.length := by
  rw [lineContent]
  split <;> simp

/-- Of two locations in lines of a text, the one that does not stand after the other has no later
position. -/
theorem position_mono {text : List Char} {first second : Location} (inside : 1 ≤ first.line)
    (within : second.line ≤ (cutLines text).length) (order : first.notAfter second = true) :
    position text first ≤ position text second := by
  rw [Location.not_after_iff] at order
  have filled : text ≠ [] := by
    rintro rfl
    rw [cutLines, List.length_nil] at within
    omega
  obtain ⟨earlier, line, later, split, number⟩ := line_of_location filled first
  obtain ⟨others, next, further, again, numberNext⟩ := line_of_location filled second
  rw [position_eq split number, position_eq again numberNext]
  rw [lineNumber] at number numberNext
  rw [split] at again
  have room := line_content_length_le line
  rcases Nat.lt_or_ge earlier.length others.length with above | below
  · -- The whole line of the first location stands in front of the line of the second one.
    obtain ⟨between, rfl, behind⟩ | ⟨between, rfl, behind⟩ := List.append_eq_append_iff.mp again
    · obtain ⟨head, tail, rfl⟩ := List.exists_cons_of_length_pos (l := between) (by
        rw [List.length_append] at above
        omega)
      obtain ⟨rfl, -⟩ := List.cons.inj behind
      rw [List.flatten_append, List.flatten_cons, List.length_append, List.length_append]
      omega
    · rw [List.length_append] at above
      omega
  · have same : earlier.length = others.length := by omega
    obtain ⟨rfl, rest⟩ := List.append_inj again same
    obtain ⟨rfl, -⟩ := List.cons.inj rest
    omega

end Text

namespace Span

variable {place : Place Node} {text : List Char}

/-- If both ends of a place are known, a text has three parts: its own, which stands between the
marks, one in front of it, up to the offset of the beginning, and one behind it, from the offset of
the end or from that of the beginning, whichever is later. -/
theorem parts_of_text {start stop : Location} (begins : start? place.tree = some start)
    (ends : stop? place = some stop) (text : List Char) :
    ∃ before inside behind, text = before ++ inside ++ behind ∧
      text? place text = some inside ∧
      mark place text = before ++ openingMark ++ inside ++ closingMark ++ behind ∧
      Text.byteCount before = Text.offset text start ∧
      Text.byteCount (before ++ inside) = max (Text.offset text stop) (Text.offset text start) := by
  have bounds : bounds? place text = some (Text.position text start,
      max (Text.position text start) (Text.position text stop)) := by
    simp [bounds?, begins, ends]
  have order : Text.position text start ≤
      max (Text.position text start) (Text.position text stop) := Nat.le_max_left _ _
  have bytes := Text.byte_count_take_max text (Text.position text stop) (Text.position text start)
  rw [Nat.max_comm] at bytes
  generalize max (Text.position text start) (Text.position text stop) = last at *
  have front : text.take (Text.position text start) ++
      (text.take last).drop (Text.position text start) = text.take last := by
    have shorter : (text.take last).take (Text.position text start) =
        text.take (Text.position text start) := by
      rw [List.take_take, Nat.min_eq_left order]
    rw [← shorter, List.take_append_drop]
  refine ⟨text.take (Text.position text start), (text.take last).drop (Text.position text start),
    text.drop last, ?_, ?_, ?_, rfl, ?_⟩
  · rw [front, List.take_append_drop]
  · rw [text?, bounds]
    rfl
  · rw [mark, bounds]
  · rw [front, bytes]
    rfl

/-! ## Cutting bytes -/

/-- The text of a place, cut out of a text between byte offsets. The cut may fail; there is nothing
to cut if an end is not known. -/
def sliceText? (place : Place Node) (text : String) : Option (Option String) :=
  match start? place.tree, stop? place with
  | some start, some stop =>
    let first := Text.offset text.toList start
    let last := max (Text.offset text.toList stop) first
    (Text.slice? text first last).map some
  | _, _ => some none

/-- A text with marks around the stretch of a place, put together from cuts at byte offsets, each of
which may fail. -/
def sliceMark? (place : Place Node) (text : String) : Option String :=
  match start? place.tree, stop? place with
  | some start, some stop => do
    let first := Text.offset text.toList start
    let last := max (Text.offset text.toList stop) first
    let before ← Text.slice? text 0 first
    let inside ← Text.slice? text first last
    let behind ← Text.slice? text last text.utf8ByteSize
    return before ++ String.ofList openingMark ++ inside ++ String.ofList closingMark ++ behind
  | _, _ => some text

/-- Without one of the ends there is no text, and nothing is marked. -/
theorem text_without_end (unknown : start? place.tree = none ∨ stop? place = none)
    (text : List Char) : text? place text = none ∧ mark place text = text := by
  have bounds : bounds? place text = none := by
    rcases unknown with nowhere | endless
    · simp [bounds?, nowhere]
    · simp [bounds?, endless]
  rw [text?, mark, bounds]
  exact ⟨rfl, rfl⟩

/-- Cutting bytes does not fail, and gives the text of the place. -/
theorem slice_text_eq (place : Place Node) (text : List Char) :
    sliceText? place (String.ofList text) = some ((text? place text).map String.ofList) := by
  cases begins : start? place.tree with
  | none =>
    rw [sliceText?, begins, (text_without_end (.inl begins) text).1]
    rfl
  | some start =>
    cases ends : stop? place with
    | none =>
      rw [sliceText?, begins, ends, (text_without_end (.inr ends) text).1]
      rfl
    | some stop =>
      obtain ⟨before, inside, behind, whole, cut, -, first, last⟩ := parts_of_text begins ends text
      have part := Text.slice_part before inside behind
      rw [← whole, first, last] at part
      rw [sliceText?, begins, ends, String.toList_ofList, cut]
      simp only [part, Option.map_some]

/-- Cutting bytes does not fail, and gives the text with its marks. -/
theorem slice_mark_eq (place : Place Node) (text : List Char) :
    sliceMark? place (String.ofList text) = some (String.ofList (mark place text)) := by
  cases begins : start? place.tree with
  | none =>
    rw [sliceMark?, begins, (text_without_end (.inl begins) text).2]
  | some start =>
    cases ends : stop? place with
    | none =>
      rw [sliceMark?, begins, ends, (text_without_end (.inr ends) text).2]
    | some stop =>
      obtain ⟨before, inside, behind, whole, -, marked, first, last⟩ :=
        parts_of_text begins ends text
      have front := Text.slice_part [] before (inside ++ behind)
      have middle := Text.slice_part before inside behind
      have rest := Text.slice_part (before ++ inside) behind []
      rw [List.nil_append, ← List.append_assoc, ← whole, first] at front
      rw [← whole, first, last] at middle
      rw [List.append_nil, ← whole, last, ← Text.byte_size_eq] at rest
      have nothing : Text.byteCount [] = 0 := rfl
      rw [nothing] at front
      rw [sliceMark?, begins, ends, String.toList_ofList, marked]
      simp only [front, middle, rest, Option.bind_eq_bind, Option.bind_some, Option.pure_def,
        String.ofList_append]

/-- Wherever a location stands, its offset is in the text and between two characters. It counts the
bytes of the lines before the one that the location means, which is the first or the last if there
is no line of its number, and of as many characters of that line as its column says and stand in
front of the line feed. Locations in lines of the text keep their order. So no cut at the offsets of
the two ends of a node can fail, neither for its text nor for the marks around it.

An offset is the number of bytes of the text in front of a position counted in characters. Such a
cut lies between two characters, and counting is monotone; cutting by bytes at the offsets is
cutting by characters at the positions. -/
theorem offsets_cut_no_character (text : List Char) (location : Location) :
    Text.offset text location ≤ (String.ofList text).utf8ByteSize ∧
      String.Pos.Raw.IsValid (String.ofList text) ⟨Text.offset text location⟩ ∧
      (∃ lines, Text.IsCut text lines ∧
        (text = [] → Text.offset text location = 0) ∧
        (text ≠ [] → ∃ earlier line later content, lines = earlier ++ line :: later ∧
          earlier.length + 1 = max 1 (min location.line lines.length) ∧
          Text.IsContent line content ∧
          Text.offset text location = Text.byteCount earlier.flatten +
            Text.byteCount (content.take (min location.column content.length))) ∧
        ∀ other, 1 ≤ location.line → other.line ≤ lines.length →
          location.notAfter other = true → Text.offset text location ≤ Text.offset text other) ∧
      ∀ place : Place Node,
        sliceText? place (String.ofList text) = some ((text? place text).map String.ofList) ∧
          sliceMark? place (String.ofList text) = some (String.ofList (mark place text)) := by
  have between : String.Pos.Raw.IsValid (String.ofList text) ⟨Text.offset text location⟩ := by
    have cut := Text.between_characters (text.take (Text.position text location))
      (text.drop (Text.position text location))
    rwa [List.take_append_drop] at cut
  refine ⟨between.le_rawEndPos, between, ⟨Text.cutLines text, Text.cut_lines_cut text, ?_, ?_, ?_⟩,
    fun place => ⟨slice_text_eq place text, slice_mark_eq place text⟩⟩
  · rintro rfl
    rw [Text.offset, List.take_nil]
    rfl
  · exact fun filled => Text.offset_in_line filled location
  · exact fun other inside within order =>
      Text.byte_count_take_mono text (Text.position_mono inside within order)

/-- A column behind the end of the first line means the place in front of the line feed, behind the
two bytes of the last letter; no location of the second line is found in front of that. -/
theorem end_of_first_line :
    let text := ['n', 'é', '\n', 'x']
    Text.offset text ⟨1, 9⟩ = 3 ∧ Text.offset text ⟨1, 9⟩ ≤ Text.offset text ⟨2, 0⟩ := by
  intro text
  obtain ⟨-, -, ⟨lines, cut, -, inLine, mono⟩, -⟩ := offsets_cut_no_character text ⟨1, 9⟩
  obtain rfl : Text.cutLines text = lines := cut.eq
  obtain ⟨earlier, line, later, content, split, number, is, bytes⟩ := inLine (by decide)
  obtain rfl : earlier = [] :=
    List.eq_nil_of_length_eq_zero (Nat.succ.inj (number.trans (by decide)))
  obtain ⟨rfl, -⟩ := List.cons.inj split
  obtain rfl : ['n', 'é'] = content := is.eq
  exact ⟨bytes, mono ⟨2, 0⟩ (by decide) (by decide) (by decide)⟩

/-- Without a text of its own a place leaves no mark in a text. With one, the text of the place
stands between the marks, in front of them is what stands in front of the offset of its beginning,
and behind them the rest. The text of the place reaches up to the offset of its end. It is empty
if that is in front of its beginning, in particular if the end is a location of the text in front of
its beginning.

The text is parted at the offset of the beginning and at the later one of the two offsets, and all
lengths are read off the parts. -/
theorem marks_around_text (place : Place Node) (text : List Char) :
    (text? place text = none → mark place text = text) ∧
      ∀ inside, text? place text = some inside → ∃ start stop before behind,
        start? place.tree = some start ∧ stop? place = some stop ∧
        text = before ++ inside ++ behind ∧
        mark place text = before ++ ['>', '>', '>'] ++ inside ++ ['<', '<', '<'] ++ behind ∧
        Text.byteCount before = Text.offset text start ∧
        Text.byteCount (before ++ inside) = max (Text.offset text stop) (Text.offset text start) ∧
        (Text.offset text stop ≤ Text.offset text start → inside = []) ∧
        (1 ≤ stop.line → start.line ≤ (Text.cutLines text).length →
          stop.notAfter start = true → inside = []) := by
  cases begins : start? place.tree with
  | none =>
    obtain ⟨absent, unmarked⟩ := text_without_end (.inl begins) text
    simp [absent, unmarked]
  | some start =>
    cases ends : stop? place with
    | none =>
      obtain ⟨absent, unmarked⟩ := text_without_end (.inr ends) text
      simp [absent, unmarked]
    | some stop =>
      obtain ⟨before, inside, behind, whole, cut, marked, first, last⟩ :=
        parts_of_text begins ends text
      have nothing (reversed : Text.offset text stop ≤ Text.offset text start) : inside = [] := by
        rw [Nat.max_eq_right reversed, Text.byte_count_append, first] at last
        exact (Text.byte_count_zero_iff inside).mp (by omega)
      refine ⟨fun absent => ?_, fun other own => ?_⟩
      · rw [cut] at absent
        cases absent
      · obtain rfl := Option.some.inj (cut.symm.trans own)
        exact ⟨start, stop, before, behind, rfl, rfl, whole, marked, first, last, nothing,
          fun inText lined order => nothing
            (Text.byte_count_take_mono text (Text.position_mono inText lined order))⟩

/-- A word that ends before it begins has an empty text, and both marks stand where it begins,
behind the five bytes in front of that. -/
theorem reversed_word_marked :
    let word : Node := { Node.bare "word" with start? := some ⟨2, 1⟩, stop? := some ⟨1, 0⟩ }
    let place := Place.top (.leaf word)
    let text := ['a', 'é', '\n', 'c', 'd']
    text? place text = some [] ∧ ∃ before behind, text = before ++ behind ∧
      Text.byteCount before = 5 ∧
      mark place text = before ++ ['>', '>', '>'] ++ ['<', '<', '<'] ++ behind := by
  intro word place text
  have empty : text? place text = some [] := by decide
  obtain ⟨start, stop, before, behind, begins, -, whole, marked, first, -⟩ :=
    (marks_around_text place text).2 [] empty
  obtain rfl : ⟨2, 1⟩ = start := Option.some.inj begins
  rw [List.append_nil] at whole marked
  exact ⟨empty, before, behind, whole, first, marked⟩

end Span

end TreeDelta
