import TreeDelta.Proofs.Json.Symbols
import TreeDelta.Proofs.Text.Divided

/-!
# Written values are told apart

Different values have different compact forms, however deeply they are nested, as long as their
numbers are counting numbers. A reader is not needed for this, and it would not do: it admits
neither all numbers nor all nestings.

It is shown for a value with whatever stands behind it, so that the elements of an array and the
fields of an object can be taken off the text one after the other. The first character says of what
sort a value is. Only a number does not show itself where it ends, so what stands behind a value
must not begin with a digit.
-/

namespace TreeDelta.Json

/-- The values all of whose numbers are counting numbers. -/
inductive Counting : Value → Prop where
  | null : Counting .null
  | bool (flag : Bool) : Counting (.bool flag)
  | natural (count : Nat) : Counting (.natural count)
  | string (text : String) : Counting (.string text)
  | array {elements : List Value} (counting : ∀ element ∈ elements, Counting element) :
    Counting (.array elements)
  | object {fields : List (String × Value)} (counting : ∀ field ∈ fields, Counting field.2) :
    Counting (.object fields)

/-! ### Strings -/

/-- A character inside a string stands for itself, or behind a backslash as a letter other than
`u`, or behind a backslash and that letter by its number. -/
theorem escape_shape (c : Char) :
    escapeChar c = [c] ∧ c ≠ '"' ∧ c ≠ '\\' ∨
      (∃ letter, letter ≠ 'u' ∧ escapeChar c = ['\\', letter]) ∨
      ∃ high low, escapeChar c = ['\\', 'u', '0', '0', high, low] := by
  have letter (letter : Char) (plain : letter ≠ 'u') (written : escapeChar c = ['\\', letter]) :
      escapeChar c = [c] ∧ c ≠ '"' ∧ c ≠ '\\' ∨
        (∃ letter, letter ≠ 'u' ∧ escapeChar c = ['\\', letter]) ∨
        ∃ high low, escapeChar c = ['\\', 'u', '0', '0', high, low] :=
    .inr (.inl ⟨letter, plain, written⟩)
  by_cases quote : c = '"'
  · exact letter '"' (by decide) (by rw [quote]; rfl)
  by_cases backslash : c = '\\'
  · exact letter '\\' (by decide) (by rw [backslash]; rfl)
  by_cases backspace : c = '\x08'
  · exact letter 'b' (by decide) (by rw [backspace]; rfl)
  by_cases formFeed : c = '\x0c'
  · exact letter 'f' (by decide) (by rw [formFeed]; rfl)
  by_cases lineFeed : c = '\n'
  · exact letter 'n' (by decide) (by rw [lineFeed]; rfl)
  by_cases carriageReturn : c = '\r'
  · exact letter 'r' (by decide) (by rw [carriageReturn]; rfl)
  by_cases tab : c = '\t'
  · exact letter 't' (by decide) (by rw [tab]; rfl)
  simp only [escapeChar, quote, backslash, backspace, formFeed, lineFeed, carriageReturn, tab,
    if_false]
  split
  · exact .inr (.inr ⟨_, _, rfl⟩)
  · exact .inl ⟨rfl, quote, backslash⟩

/-- Different characters are written differently inside a string: each is read back. -/
theorem escape_injective {first second : Char} (same : escapeChar first = escapeChar second) :
    first = second := by
  have firstRead := @feed_escaped 0 [] .value [] first
  rw [same, feed_escaped] at firstRead
  simpa using firstRead.symm

/-- The length of what is written for the first character inside a string: the first two characters
of the text show it. -/
def escapeLength (text : List Char) : Nat :=
  if text.head? = some '\\' then if text.tail.head? = some 'u' then 6 else 2 else 1

/-- What is written for a character is as long as it shows. -/
theorem escape_length (c : Char) (rest : List Char) :
    escapeLength (escapeChar c ++ rest) = (escapeChar c).length := by
  rcases escape_shape c with ⟨here, -, plain⟩ | ⟨letter, plain, here⟩ | ⟨high, low, here⟩ <;>
    rw [here]
  · simp [escapeLength, plain]
  · simp [escapeLength, plain]
  · simp [escapeLength]

/-- A character inside a string is told by what is written for it, with whatever stands behind. -/
theorem escape_append_injective {first second : Char} {firstRest secondRest : List Char}
    (same : escapeChar first ++ firstRest = escapeChar second ++ secondRest) :
    first = second ∧ firstRest = secondRest := by
  have length : (escapeChar first).length = (escapeChar second).length := by
    rw [← escape_length first firstRest, same, escape_length]
  obtain ⟨written, rests⟩ := List.append_inj same length
  exact ⟨escape_injective written, rests⟩

/-- No character inside a string begins with the quote that would end it. -/
theorem escape_unquoted (c : Char) (rest other : List Char) :
    escapeChar c ++ rest ≠ '"' :: other := by
  intro same
  rcases escape_shape c with ⟨here, unquoted, -⟩ | ⟨_, _, here⟩ | ⟨_, _, here⟩ <;> rw [here] at same
  · exact unquoted (List.cons.inj same).1
  · exact absurd (List.cons.inj same).1 (by decide)
  · exact absurd (List.cons.inj same).1 (by decide)

/-- A string is told by its written form, with whatever stands behind. -/
theorem string_append_injective {first second : String} {firstRest secondRest : List Char}
    (same : writeString first ++ firstRest = writeString second ++ secondRest) :
    first = second ∧ firstRest = secondRest := by
  simp only [writeString, List.cons_append, List.append_assoc, List.nil_append, List.cons.injEq,
    true_and] at same
  obtain ⟨texts, rests⟩ := Text.marked_alike escape_append_injective escape_unquoted same
  exact ⟨String.toList_inj.mp texts, rests⟩

/-! ### Numbers -/

/-- Whether a text does not go on with a digit. -/
def Ends (rest : List Char) : Prop := ∀ c ∈ rest.head?, c.isDigit = false

/-- A counting number is written in digits. -/
theorem compact_natural (count : Nat) : compact (.natural count) = Nat.toDigits 10 count := by
  rw [Value.natural, compact]
  exact Nat.toList_repr

/-- A counting number is told by its written form if what stands behind begins with no digit. -/
theorem natural_append_injective {first second : Nat} {firstRest secondRest : List Char}
    (firstEnds : Ends firstRest) (secondEnds : Ends secondRest)
    (same : Nat.toDigits 10 first ++ firstRest = Nat.toDigits 10 second ++ secondRest) :
    first = second ∧ firstRest = secondRest := by
  have digits (count : Nat) : ∀ c ∈ Nat.toDigits 10 count, c.isDigit = true := fun c member =>
    Nat.isDigit_of_mem_toDigits (by decide) (by decide) member
  obtain ⟨numerals, rests⟩ :=
    Text.divided_alike same (digits first) (digits second) firstEnds secondEnds
  refine ⟨?_, rests⟩
  rw [← digits_value first, numerals, digits_value]

/-! ### Beginnings -/

/-- What a character says of the value that it begins. The last says that it begins none. -/
inductive Beginning where
  | null | bool | number | string | array | object | none
  deriving DecidableEq

/-- The sort of value that begins with a character. -/
def beginningOf (c : Char) : Beginning :=
  if c = 'n' then .null
  else if c = 't' || c = 'f' then .bool
  else if c = '"' then .string
  else if c = '[' then .array
  else if c = '\x7b' then .object
  else if c.isDigit then .number
  else .none

/-- The sort of a value. -/
def Value.beginning : Value → Beginning
  | .null => .null
  | .bool _ => .bool
  | .number _ => .number
  | .string _ => .string
  | .array _ => .array
  | .object _ => .object

/-- A value begins with a character that tells its sort. -/
theorem compact_begins {value : Value} (counting : Counting value) :
    ∃ c rest, compact value = c :: rest ∧ beginningOf c = value.beginning := by
  cases counting with
  | null => exact ⟨_, _, rfl, rfl⟩
  | bool flag => cases flag <;> exact ⟨_, _, rfl, rfl⟩
  | natural count =>
    rw [compact_natural]
    cases digits : Nat.toDigits 10 count with
    | nil => exact absurd digits Nat.toDigits_ne_nil
    | cons c rest =>
      have isDigit : c.isDigit = true :=
        Nat.isDigit_of_mem_toDigits (by decide) (by decide) (digits ▸ List.mem_cons_self)
      have different (symbol : Char) (other : symbol.isDigit = false) : c ≠ symbol := by
        rintro rfl
        rw [other] at isDigit
        cases isDigit
      refine ⟨c, rest, rfl, ?_⟩
      simp [beginningOf, different, isDigit, Value.natural, Value.beginning]
  | string text => exact ⟨_, _, rfl, rfl⟩
  | @array elements _ => cases elements <;> exact ⟨_, _, rfl, rfl⟩
  | @object fields _ => cases fields <;> exact ⟨_, _, rfl, rfl⟩

/-- Values that are written alike, with whatever stands behind, are of the same sort. -/
theorem same_beginning {first second : Value} {firstRest secondRest : List Char}
    (firstCounting : Counting first) (secondCounting : Counting second)
    (same : compact first ++ firstRest = compact second ++ secondRest) :
    first.beginning = second.beginning := by
  obtain ⟨c, further, firstWritten, firstSort⟩ := compact_begins firstCounting
  obtain ⟨d, others, secondWritten, secondSort⟩ := compact_begins secondCounting
  rw [firstWritten, secondWritten] at same
  obtain rfl : c = d := (List.cons.inj same).1
  exact firstSort.symm.trans secondSort

/-- No value begins with the bracket that closes an array. -/
theorem compact_not_closing {value : Value} (counting : Counting value) (rest other : List Char) :
    compact value ++ rest ≠ ']' :: other := by
  obtain ⟨c, further, written, sort⟩ := compact_begins counting
  rw [written]
  intro same
  obtain rfl : c = ']' := (List.cons.inj same).1
  cases counting <;> cases sort

/-! ### Containers -/

/-- Whether a value is told from all others by its compact form, with whatever stands behind. -/
def ToldApart (value : Value) : Prop :=
  ∀ {other : Value} {rest otherRest : List Char}, Counting other → Ends rest → Ends otherRest →
    compact value ++ rest = compact other ++ otherRest → value = other ∧ rest = otherRest

/-- What stands behind an element of an array begins with no digit. -/
theorem ends_elements (elements : List Value) (rest : List Char) :
    Ends (compactElements elements ++ ']' :: rest) := by
  cases elements <;> simp [Ends, compactElements]

/-- What stands behind a field of an object begins with no digit. -/
theorem ends_fields (fields : List (String × Value)) (rest : List Char) :
    Ends (compactFields fields ++ '}' :: rest) := by
  cases fields <;> simp [Ends, compactFields]

/-- The further elements of an array are told one after the other. -/
theorem elements_told {elements others : List Value} {rest otherRest : List Char}
    (told : ∀ element ∈ elements, ToldApart element) (counting : ∀ other ∈ others, Counting other)
    (same : compactElements elements ++ ']' :: rest = compactElements others ++ ']' :: otherRest) :
    elements = others ∧ rest = otherRest := by
  induction elements generalizing others with
  | nil =>
    cases others with
    | nil => exact ⟨rfl, (List.cons.inj same).2⟩
    | cons other further => exact absurd (List.cons.inj same).1 (by decide)
  | cons element later inductionHypothesis =>
    cases others with
    | nil => exact absurd (List.cons.inj same).1 (by decide)
    | cons other further =>
      simp only [compactElements, List.cons_append, List.append_assoc, List.cons.injEq,
        true_and] at same
      obtain ⟨rfl, behind⟩ := told element List.mem_cons_self (counting other List.mem_cons_self)
        (ends_elements later rest) (ends_elements further otherRest) same
      obtain ⟨rfl, rests⟩ := inductionHypothesis
        (fun member listed => told member (List.mem_cons_of_mem element listed))
        (fun member listed => counting member (List.mem_cons_of_mem element listed)) behind
      exact ⟨rfl, rests⟩

/-- A field of an object is told by its key and its value. -/
theorem field_told {field other : String × Value} {rest otherRest : List Char}
    (told : ToldApart field.2) (counting : Counting other.2) (ends : Ends rest)
    (otherEnds : Ends otherRest)
    (same : writeString field.1 ++ ':' :: (compact field.2 ++ rest) =
      writeString other.1 ++ ':' :: (compact other.2 ++ otherRest)) :
    field = other ∧ rest = otherRest := by
  obtain ⟨keys, behind⟩ := string_append_injective same
  obtain ⟨values, rests⟩ := told counting ends otherEnds (List.cons.inj behind).2
  exact ⟨Prod.ext keys values, rests⟩

/-- The further fields of an object are told one after the other. -/
theorem fields_told {fields others : List (String × Value)} {rest otherRest : List Char}
    (told : ∀ field ∈ fields, ToldApart field.2) (counting : ∀ other ∈ others, Counting other.2)
    (same : compactFields fields ++ '}' :: rest = compactFields others ++ '}' :: otherRest) :
    fields = others ∧ rest = otherRest := by
  induction fields generalizing others with
  | nil =>
    cases others with
    | nil => exact ⟨rfl, (List.cons.inj same).2⟩
    | cons other further => exact absurd (List.cons.inj same).1 (by decide)
  | cons field later inductionHypothesis =>
    cases others with
    | nil => exact absurd (List.cons.inj same).1 (by decide)
    | cons other further =>
      simp only [compactFields, List.cons_append, List.append_assoc, List.cons.injEq,
        true_and] at same
      obtain ⟨rfl, behind⟩ := field_told (told field List.mem_cons_self)
        (counting other List.mem_cons_self) (ends_fields later rest) (ends_fields further otherRest)
        same
      obtain ⟨rfl, rests⟩ := inductionHypothesis
        (fun member listed => told member (List.mem_cons_of_mem _ listed))
        (fun member listed => counting member (List.mem_cons_of_mem _ listed)) behind
      exact ⟨rfl, rests⟩

/-- An array is told by its elements. -/
theorem array_told {elements : List Value} (counting : ∀ element ∈ elements, Counting element)
    (told : ∀ element ∈ elements, ToldApart element) : ToldApart (.array elements) := by
  intro other rest otherRest otherCounting _ _ same
  have sorts := same_beginning (.array counting) otherCounting same
  cases otherCounting with
  | @array others othersCounting =>
    cases elements with
    | nil =>
      cases others with
      | nil => exact ⟨rfl, (List.cons.inj (List.cons.inj same).2).2⟩
      | cons other further =>
        simp only [compact, List.cons_append, List.append_assoc, List.cons.injEq, true_and] at same
        exact absurd same.symm (compact_not_closing (othersCounting other List.mem_cons_self) _ _)
    | cons element later =>
      cases others with
      | nil =>
        simp only [compact, List.cons_append, List.append_assoc, List.cons.injEq, true_and] at same
        exact absurd same (compact_not_closing (counting element List.mem_cons_self) _ _)
      | cons other further =>
        simp only [compact, List.cons_append, List.append_assoc, List.nil_append, List.cons.injEq,
          true_and] at same
        obtain ⟨rfl, behind⟩ := told element List.mem_cons_self
          (othersCounting other List.mem_cons_self) (ends_elements later rest)
          (ends_elements further otherRest) same
        obtain ⟨rfl, rests⟩ := elements_told
          (fun member listed => told member (List.mem_cons_of_mem element listed))
          (fun member listed => othersCounting member (List.mem_cons_of_mem element listed)) behind
        exact ⟨rfl, rests⟩
  | _ => cases sorts

/-- An object is told by its fields, in their order. -/
theorem object_told {fields : List (String × Value)}
    (counting : ∀ field ∈ fields, Counting field.2) (told : ∀ field ∈ fields, ToldApart field.2) :
    ToldApart (.object fields) := by
  intro other rest otherRest otherCounting _ _ same
  have sorts := same_beginning (.object counting) otherCounting same
  cases otherCounting with
  | @object others othersCounting =>
    cases fields with
    | nil =>
      cases others with
      | nil => exact ⟨rfl, (List.cons.inj (List.cons.inj same).2).2⟩
      | cons other further =>
        exact absurd (List.cons.inj (List.cons.inj same).2).1 (by decide)
    | cons field later =>
      cases others with
      | nil => exact absurd (List.cons.inj (List.cons.inj same).2).1 (by decide)
      | cons other further =>
        simp only [compact, List.cons_append, List.append_assoc, List.nil_append, List.cons.injEq,
          true_and] at same
        obtain ⟨rfl, behind⟩ := field_told (told field List.mem_cons_self)
          (othersCounting other List.mem_cons_self) (ends_fields later rest)
          (ends_fields further otherRest) same
        obtain ⟨rfl, rests⟩ := fields_told
          (fun member listed => told member (List.mem_cons_of_mem _ listed))
          (fun member listed => othersCounting member (List.mem_cons_of_mem _ listed)) behind
        exact ⟨rfl, rests⟩
  | _ => cases sorts

/-- Every value with counting numbers is told by its compact form, with whatever stands behind.

The induction is on the value. The first character of a text tells the sort of its value, so the
other value is of the same sort. Then the texts are compared within this sort, with the rests behind
them. -/
theorem told_apart {value : Value} (counting : Counting value) : ToldApart value := by
  induction counting with
  | null =>
    intro other rest otherRest otherCounting _ _ same
    have sorts := same_beginning .null otherCounting same
    cases otherCounting with
    | null => exact ⟨rfl, List.append_cancel_left same⟩
    | _ => cases sorts
  | bool flag =>
    intro other rest otherRest otherCounting _ _ same
    have sorts := same_beginning (.bool flag) otherCounting same
    cases otherCounting with
    | bool otherFlag =>
      cases flag <;> cases otherFlag <;> simp_all [compact]
    | _ => cases sorts
  | natural count =>
    intro other rest otherRest otherCounting ends otherEnds same
    have sorts := same_beginning (.natural count) otherCounting same
    cases otherCounting with
    | natural otherCount =>
      rw [compact_natural, compact_natural] at same
      obtain ⟨rfl, rests⟩ := natural_append_injective ends otherEnds same
      exact ⟨rfl, rests⟩
    | _ => cases sorts
  | string text =>
    intro other rest otherRest otherCounting _ _ same
    have sorts := same_beginning (.string text) otherCounting same
    cases otherCounting with
    | string otherText =>
      obtain ⟨rfl, rests⟩ := string_append_injective same
      exact ⟨rfl, rests⟩
    | _ => cases sorts
  | array counting inductionHypothesis => exact array_told counting inductionHypothesis
  | object counting inductionHypothesis => exact object_told counting inductionHypothesis

/-- Values with counting numbers are the same if their compact texts are. -/
theorem write_injective {first second : Value} (firstCounting : Counting first)
    (secondCounting : Counting second) (same : write false first = write false second) :
    first = second := by
  have texts : compact first ++ [] = compact second ++ [] := by
    simpa [write] using congrArg String.toList same
  exact (told_apart firstCounting secondCounting (by simp [Ends]) (by simp [Ends]) texts).1

end TreeDelta.Json
