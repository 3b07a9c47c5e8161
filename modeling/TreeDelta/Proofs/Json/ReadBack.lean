import TreeDelta.Proofs.Json.Layout
import TreeDelta.Proofs.Json.Symbols

/-!
# Reading back what has been written

A written value is read back in every layout, as long as the containers that are open around it and
the containers nested in it are no more than the reader admits; otherwise the text is malformed at
the bracket that is one too many. A value is read back when its numbers are counting numbers of 64
bits and the keys of its objects differ.

What is read of a value depends on nothing that stands around it but the number of containers. So
the elements of an array are read one after the other, each as it would be read alone, and the
first that is nested too deeply decides.
-/

namespace TreeDelta.Json

/-- The values that are read back: numbers count and fit into 64 bits, and keys differ. -/
inductive Readable : Value → Prop where
  | null : Readable .null
  | bool (flag : Bool) : Readable (.bool flag)
  | natural {count : Nat} (small : count < Numeral.significandBound) : Readable (.natural count)
  | string (text : String) : Readable (.string text)
  | array {elements : List Value} (readable : ∀ element ∈ elements, Readable element) :
    Readable (.array elements)
  | object {fields : List (String × Value)} (differ : (fields.map Prod.fst).Nodup)
    (readable : ∀ field ∈ fields, Readable field.2) : Readable (.object fields)

namespace Value

mutual

/-- The number of containers that are open at once while a value is read. -/
def nesting : Value → Nat
  | .array elements => nestingElements elements + 1
  | .object fields => nestingFields fields + 1
  | _ => 0

/-- The greatest nesting of several values. -/
def nestingElements : List Value → Nat
  | [] => 0
  | value :: rest => max (nesting value) (nestingElements rest)

/-- The greatest nesting of the values of several fields. -/
def nestingFields : List (String × Value) → Nat
  | [] => 0
  | (_, value) :: rest => max (nesting value) (nestingFields rest)

end

/-- The nesting of several values is bounded by a bound of each. -/
theorem nesting_elements_le (elements : List Value) (bound : Nat) :
    nestingElements elements ≤ bound ↔ ∀ element ∈ elements, element.nesting ≤ bound := by
  induction elements with
  | nil => simp [nestingElements]
  | cons value rest inductionHypothesis =>
    rw [nestingElements, Nat.max_le, inductionHypothesis, List.forall_mem_cons]

/-- The nesting of several fields is bounded by a bound of each. -/
theorem nesting_fields_le (fields : List (String × Value)) (bound : Nat) :
    nestingFields fields ≤ bound ↔ ∀ field ∈ fields, field.2.nesting ≤ bound := by
  induction fields with
  | nil => simp [nestingFields]
  | cons field rest inductionHypothesis =>
    rw [nestingFields, Nat.max_le, inductionHypothesis, List.forall_mem_cons]

end Value

/-- A text that is taken in full if it fits, ending in a state that has a property, and that is
malformed if it does not fit. -/
structure Reads (limit : Nat) (start : ReadState) (text : List Char) (fits : Prop)
    (after : ReadState → Prop) : Prop where
  taken : fits → ∃ state, feed limit start text = .ok state ∧ after state
  refused : ¬ fits → feed limit start text = .error .malformed

variable {limit : Nat} {start : ReadState} {text further : List Char} {fits fitsFurther : Prop}
  {after afterFurther : ReadState → Prop}

/-- Texts are read one after the other. -/
theorem Reads.then (reads : Reads limit start text fits after)
    (goesOn : ∀ state, after state → Reads limit state further fitsFurther afterFurther) :
    Reads limit start (text ++ further) (fits ∧ fitsFurther) afterFurther := by
  constructor
  · rintro ⟨room, roomFurther⟩
    obtain ⟨middle, fed, holds⟩ := reads.taken room
    obtain ⟨state, fedFurther, holdsFurther⟩ := (goesOn middle holds).taken roomFurther
    refine ⟨state, ?_, holdsFurther⟩
    rw [feed_append, fed]
    exact fedFurther
  · intro tight
    rw [feed_append]
    by_cases room : fits
    · obtain ⟨middle, fed, holds⟩ := reads.taken room
      rw [fed]
      exact (goesOn middle holds).refused fun roomFurther => tight ⟨room, roomFurther⟩
    · rw [reads.refused room]
      rfl

/-- What is always taken does not decide whether the rest fits. -/
theorem Reads.behind {middle : ReadState} (fed : feed limit start text = .ok middle)
    (reads : Reads limit middle further fits after) :
    Reads limit start (text ++ further) fits after := by
  constructor
  · intro room
    obtain ⟨state, fedFurther, holds⟩ := reads.taken room
    refine ⟨state, ?_, holds⟩
    rw [feed_append, fed]
    exact fedFurther
  · intro tight
    rw [feed_append, fed]
    exact reads.refused tight

/-- Whether a text fits may be said in other words. -/
theorem Reads.of_iff (reads : Reads limit start text fits after) (same : fits ↔ fitsFurther) :
    Reads limit start text fitsFurther after :=
  ⟨fun room => reads.taken (same.mpr room),
    fun tight => reads.refused fun room => tight (same.mp room)⟩

/-- What holds of the state after a text may be weakened. -/
theorem Reads.weaken {weaker : ReadState → Prop} (reads : Reads limit start text fits after)
    (implies : ∀ state, after state → weaker state) : Reads limit start text fits weaker := by
  refine ⟨fun room => ?_, reads.refused⟩
  obtain ⟨state, fed, holds⟩ := reads.taken room
  exact ⟨state, fed, implies state holds⟩

/-- A text that is always taken. -/
theorem Reads.of_feed {state : ReadState} (fed : feed limit start text = .ok state)
    (holds : after state) (room : fits) : Reads limit start text fits after :=
  ⟨fun _ => ⟨state, fed, holds⟩, fun tight => absurd room tight⟩

/-- Whether a value is read back wherever a value may begin and no bracket was one too many. -/
def ReadsBack (layout : Layout) (value : Value) : Prop :=
  ∀ limit frames mode depth, frames.length ≤ limit → Accepts mode →
    Reads limit ⟨frames, mode⟩ (written layout depth value) (frames.length + value.nesting ≤ limit)
      (Finished frames value)

/-! ### Between symbols -/

/-- Whether separators are passed over. -/
def Waits (mode : Mode) : Prop :=
  mode = .value ∨ mode = .firstElement ∨ mode = .firstKey ∨ (∃ fields, mode = .nextKey fields) ∨
    ∃ value, mode = .done value

/-- Separators between symbols are passed over. -/
theorem feed_blank (limit : Nat) (frames : List Frame) {mode : Mode} (waits : Waits mode)
    (blank : List Char) (separate : ∀ c ∈ blank, isSeparator c = true) :
    feed limit ⟨frames, mode⟩ blank = .ok ⟨frames, mode⟩ := by
  induction blank with
  | nil => rfl
  | cons c rest inductionHypothesis =>
    have first := separate c List.mem_cons_self
    have passed : step limit ⟨frames, mode⟩ c = .ok ⟨frames, mode⟩ := by
      rcases waits with rfl | rfl | rfl | ⟨fields, rfl⟩ | ⟨value, rfl⟩ <;>
        simp [step, afterValue, first]
    rw [feed_cons, passed]
    exact inductionHypothesis fun other member => separate other (List.mem_cons_of_mem c member)

variable {layout : Layout} {frames : List Frame}

/-- Behind a finished value a line may begin before the bracket that closes its container. -/
theorem feed_closing (blank : layout.Blank) (depth : Nat) {value : Value} {state : ReadState}
    (finished : Finished frames value state) {closer : Char} (delimits : Delimits closer) :
    feed limit state (layout.line depth ++ [closer]) = step limit ⟨frames, .done value⟩ closer := by
  have single (state : ReadState) : feed limit state [closer] = step limit state closer := by
    rw [feed_cons]
    cases step limit state closer <;> rfl
  rcases blank.newline depth with none | ⟨indent, newline⟩
  · rw [none, List.nil_append, single]
    exact finished.goesOn limit closer delimits
  · rw [newline, List.cons_append, finished.feed (.inr (.inr (.inr rfl))), ← List.cons_append,
      ← newline, feed_append, feed_blank limit frames (.inr (.inr (.inr (.inr ⟨value, rfl⟩))))
        (layout.line depth) (blank.line depth)]
    exact single _

/-- The elements behind one that has been read are read up to the bracket that closes the array. -/
theorem feed_elements (blank : layout.Blank) (inner outer : Nat) (rest : List Value)
    (readsBack : ∀ element ∈ rest, ReadsBack layout element) (opened : frames.length < limit)
    (gathered : List Value) {last : Value} {state : ReadState}
    (finished : Finished (.array gathered :: frames) last state) :
    Reads limit state (writtenElements layout inner rest ++ (layout.line outer ++ [']']))
      (∀ element ∈ rest, frames.length + 1 + element.nesting ≤ limit)
      (· = ⟨frames, .done (.array (gathered.reverse ++ last :: rest))⟩) := by
  induction rest generalizing gathered last state with
  | nil =>
    have closed :
        feed limit state (writtenElements layout inner [] ++ (layout.line outer ++ [']'])) =
          .ok ⟨frames, .done (.array (gathered.reverse ++ [last]))⟩ := by
      rw [writtenElements, List.nil_append, feed_closing blank outer finished (.inr (.inl rfl))]
      simp [step, afterValue, isSeparator, Frame.close]
    exact .of_feed closed rfl (by simp)
  | cons value rest inductionHypothesis =>
    have comma : feed limit state (',' :: layout.line inner) =
        .ok ⟨.array (last :: gathered) :: frames, .value⟩ := by
      rw [finished.feed (.inl rfl), feed_cons]
      exact feed_blank limit _ (.inl rfl) (layout.line inner) (blank.line inner)
    have first := readsBack value List.mem_cons_self limit (.array (last :: gathered) :: frames)
      .value inner opened (.inl rfl)
    have both := first.then fun state finished => inductionHypothesis
      (fun element member => readsBack element (List.mem_cons_of_mem value member))
      (last :: gathered) finished
    have fits : (frames.length + 1 + value.nesting ≤ limit ∧
        ∀ element ∈ rest, frames.length + 1 + element.nesting ≤ limit) ↔
          ∀ element ∈ value :: rest, frames.length + 1 + element.nesting ≤ limit := by
      rw [List.forall_mem_cons]
    have whole := (Reads.behind comma both).of_iff fits
    simpa [writtenElements] using whole

/-- A key is read up to the value behind it. -/
theorem feed_key (blank : layout.Blank) (limit : Nat) (frames : List Frame)
    (fields : List (String × Value)) {mode : Mode}
    (expected : mode = .nextKey fields ∨ mode = .firstKey ∧ fields = []) (frame : Frame)
    (key : String) :
    feed limit ⟨frame :: frames, mode⟩ (writeString key ++ ':' :: layout.gap) =
      .ok ⟨.object fields key :: frames, .value⟩ := by
  have opened : step limit ⟨frame :: frames, mode⟩ '"' =
      .ok ⟨frame :: frames, .string (.key fields) [] .none⟩ := by
    rcases expected with rfl | ⟨rfl, rfl⟩ <;> rfl
  have colon : feed limit ⟨frame :: frames, .colon fields key⟩ (':' :: layout.gap) =
      .ok ⟨.object fields key :: frames, .value⟩ := by
    rw [feed_cons]
    exact feed_blank limit _ (.inl rfl) layout.gap blank.gap
  rw [feed_append, writeString, feed_cons, opened]
  simp only [Except.bind, feed_string]
  exact colon

/-- A field with a key of its own is put behind the others. -/
theorem put_behind {fields rest : List (String × Value)} {key : String} {last : Value}
    (differ : ((fields ++ (key, last) :: rest).map Prod.fst).Nodup) :
    putField key last fields = fields ++ [(key, last)] := by
  refine putField_of_not_mem fun taken => ?_
  simp only [List.map_append, List.map_cons, List.nodup_append] at differ
  exact differ.2.2 key taken key List.mem_cons_self rfl

/-- The fields behind one that has been read are read up to the bracket that closes the object. -/
theorem feed_fields (blank : layout.Blank) (inner outer : Nat) (rest : List (String × Value))
    (readsBack : ∀ field ∈ rest, ReadsBack layout field.2) (opened : frames.length < limit)
    (fields : List (String × Value)) {key : String} {last : Value}
    (differ : ((fields ++ (key, last) :: rest).map Prod.fst).Nodup) {state : ReadState}
    (finished : Finished (.object fields key :: frames) last state) :
    Reads limit state (writtenFields layout inner rest ++ (layout.line outer ++ ['}']))
      (∀ field ∈ rest, frames.length + 1 + field.2.nesting ≤ limit)
      (· = ⟨frames, .done (.object (fields ++ (key, last) :: rest))⟩) := by
  induction rest generalizing fields key last state with
  | nil =>
    have closed : feed limit state (writtenFields layout inner [] ++ (layout.line outer ++ ['}'])) =
        .ok ⟨frames, .done (.object (fields ++ [(key, last)]))⟩ := by
      rw [writtenFields, List.nil_append,
        feed_closing blank outer finished (.inr (.inr (.inl rfl)))]
      simp [step, afterValue, isSeparator, put_behind differ]
    exact .of_feed closed rfl (by simp)
  | cons field rest inductionHypothesis =>
    obtain ⟨nextKey, value⟩ := field
    have comma : feed limit state (',' :: layout.line inner) =
        .ok ⟨.object fields key :: frames, .nextKey (fields ++ [(key, last)])⟩ := by
      rw [finished.feed (.inl rfl), feed_cons, ← put_behind differ]
      exact feed_blank limit _ (.inr (.inr (.inr (.inl ⟨_, rfl⟩)))) (layout.line inner)
        (blank.line inner)
    have named := feed_key blank limit frames (fields ++ [(key, last)]) (.inl rfl)
      (.object fields key) nextKey
    have first := readsBack (nextKey, value) List.mem_cons_self limit
      (.object (fields ++ [(key, last)]) nextKey :: frames) .value inner opened (.inl rfl)
    have both := first.then fun state finished => inductionHypothesis
      (fun other member => readsBack other (List.mem_cons_of_mem _ member))
      (fields ++ [(key, last)]) (by simpa using differ) finished
    have fits : (frames.length + 1 + value.nesting ≤ limit ∧
        ∀ field ∈ rest, frames.length + 1 + field.2.nesting ≤ limit) ↔
          ∀ field ∈ (nextKey, value) :: rest, frames.length + 1 + field.2.nesting ≤ limit := by
      rw [List.forall_mem_cons]
    have whole := (Reads.behind comma (Reads.behind named both)).of_iff fits
    simpa [writtenFields] using whole

/-- A bracket is taken if one more container may be open, and then what is inside decides. -/
theorem Reads.of_opened {first : Frame} {mode firstMode : Mode} (accepts : Accepts mode)
    {bracket : Char} (symbol : isSeparator bracket = false) (opening : bracket ≠ ']')
    (opens : startValue limit frames bracket = openContainer limit frames first firstMode)
    (inside : frames.length < limit → Reads limit ⟨first :: frames, firstMode⟩ text fits after) :
    Reads limit ⟨frames, mode⟩ (bracket :: text) (frames.length < limit ∧ fits) after := by
  have started := (step_first limit frames accepts symbol opening).trans opens
  constructor
  · rintro ⟨room, fits⟩
    obtain ⟨state, fed, holds⟩ := (inside room).taken fits
    refine ⟨state, ?_, holds⟩
    rw [feed_cons, started, openContainer, if_pos room]
    exact fed
  · intro tight
    rw [feed_cons, started, openContainer]
    by_cases room : frames.length < limit
    · rw [if_pos room]
      exact (inside room).refused fun fits => tight ⟨room, fits⟩
    · rw [if_neg room]
      rfl

/-- A container fits if it may be opened and its members fit inside. Their nesting is given by a
bound of each. -/
theorem container_fits {α : Type} (opened limit : Nat) {members : List α} {depth : α → Nat}
    {inner : Nat} (bounded : ∀ bound, inner ≤ bound ↔ ∀ member ∈ members, depth member ≤ bound) :
    (opened < limit ∧ ∀ member ∈ members, opened + 1 + depth member ≤ limit) ↔
      opened + (inner + 1) ≤ limit := by
  constructor
  · rintro ⟨room, fits⟩
    have inside := (bounded (limit - (opened + 1))).mpr fun member listed => by
      have fit := fits member listed
      omega
    omega
  · intro fits
    refine ⟨by omega, fun member listed => ?_⟩
    have inside := (bounded inner).mp (Nat.le_refl inner) member listed
    omega

/-- An array of values that are read back is read back. -/
theorem array_reads_back (blank : layout.Blank) {elements : List Value}
    (readsBack : ∀ element ∈ elements, ReadsBack layout element) :
    ReadsBack layout (.array elements) := by
  intro limit frames mode depth _ accepts
  rw [Value.nesting]
  refine Reads.of_iff ?_
    (container_fits frames.length limit (Value.nesting_elements_le elements))
  cases elements with
  | nil =>
    refine .of_opened accepts rfl (by decide) rfl fun _ => ?_
    have closed : feed limit ⟨.array [] :: frames, .firstElement⟩ [']'] =
        .ok ⟨frames, .done (.array [])⟩ := rfl
    exact .of_feed closed (finished_done _ _) (by simp)
  | cons first rest =>
    rw [written]
    refine .of_opened accepts rfl (by decide) rfl fun opened => ?_
    have begun := feed_blank limit (.array [] :: frames) (.inr (.inl rfl))
      (layout.line (depth + 1)) (blank.line (depth + 1))
    have firstReads := readsBack first List.mem_cons_self limit (.array [] :: frames) .firstElement
      (depth + 1) opened (.inr rfl)
    have whole := firstReads.then fun state finished => feed_elements blank (depth + 1) depth rest
      (fun element member => readsBack element (List.mem_cons_of_mem first member))
      opened [] finished
    refine ((Reads.behind begun whole).weaken ?_).of_iff ?_
    · rintro _ rfl
      exact finished_done _ _
    · rw [List.forall_mem_cons]
      rfl

/-- An object with different keys whose values are read back is read back. -/
theorem object_reads_back (blank : layout.Blank) {fields : List (String × Value)}
    (differ : (fields.map Prod.fst).Nodup)
    (readsBack : ∀ field ∈ fields, ReadsBack layout field.2) :
    ReadsBack layout (.object fields) := by
  intro limit frames mode depth _ accepts
  rw [Value.nesting]
  refine Reads.of_iff ?_ (container_fits frames.length limit (Value.nesting_fields_le fields))
  cases fields with
  | nil =>
    refine .of_opened accepts rfl (by decide) rfl fun _ => ?_
    have closed : feed limit ⟨.object [] "" :: frames, .firstKey⟩ ['}'] =
        .ok ⟨frames, .done (.object [])⟩ := rfl
    exact .of_feed closed (finished_done _ _) (by simp)
  | cons field rest =>
    obtain ⟨key, first⟩ := field
    rw [written]
    refine .of_opened accepts rfl (by decide) rfl fun opened => ?_
    have begun := feed_blank limit (.object [] "" :: frames) (.inr (.inr (.inl rfl)))
      (layout.line (depth + 1)) (blank.line (depth + 1))
    have named := feed_key blank limit frames [] (.inr ⟨rfl, rfl⟩) (.object [] "") key
    have firstReads := readsBack (key, first) List.mem_cons_self limit (.object [] key :: frames)
      .value (depth + 1) opened (.inl rfl)
    have whole := firstReads.then fun state finished => feed_fields blank (depth + 1) depth rest
      (fun field member => readsBack field (List.mem_cons_of_mem _ member))
      opened [] differ finished
    rw [← List.cons_append, ← List.append_assoc (writeString key)]
    refine ((Reads.behind begun (Reads.behind named whole)).weaken ?_).of_iff ?_
    · rintro _ rfl
      exact finished_done _ _
    · rw [List.forall_mem_cons]
      rfl

/-- Readable values are read back in every blank layout.

The induction is on the value. A scalar is fed character by character up to a finished state; the
containers use the hypothesis for each of their elements, in any frames. -/
theorem reads_back (blank : layout.Blank) {value : Value} (readable : Readable value) :
    ReadsBack layout value := by
  induction readable with
  | null =>
    intro limit frames mode depth room accepts
    have fed : feed limit ⟨frames, mode⟩ ['n', 'u', 'l', 'l'] = .ok ⟨frames, .done .null⟩ := by
      rw [feed_cons, step_first limit frames accepts rfl (by decide)]
      rfl
    exact .of_feed fed (finished_done _ _) room
  | bool flag =>
    intro limit frames mode depth room accepts
    have fed : feed limit ⟨frames, mode⟩ (written layout depth (.bool flag)) =
        .ok ⟨frames, .done (.bool flag)⟩ := by
      cases flag <;>
      · rw [written, feed_cons, step_first limit frames accepts rfl (by decide)]
        rfl
    exact .of_feed fed (finished_done _ _) room
  | @natural count small =>
    intro limit frames mode depth room accepts
    obtain ⟨state, fed, finished⟩ := feed_number limit frames accepts small
    have digits : written layout depth (.natural count) = Nat.toDigits 10 count := by
      rw [Value.natural, written]
      exact Nat.toList_repr
    rw [← digits] at fed
    exact .of_feed fed finished room
  | string text =>
    intro limit frames mode depth room accepts
    have fed : feed limit ⟨frames, mode⟩ (written layout depth (.string text)) =
        .ok ⟨frames, .done (.string text)⟩ := by
      rw [written, writeString, feed_cons, step_first limit frames accepts rfl (by decide)]
      exact feed_string .value text
    exact .of_feed fed (finished_done _ _) room
  | array _ inductionHypothesis => exact array_reads_back blank inductionHypothesis
  | object differ _ inductionHypothesis => exact object_reads_back blank differ inductionHypothesis

/-- What has been written for a readable value is read as the value if its containers are no more
than the reader admits, and is malformed otherwise. -/
theorem read_written (limit : Nat) (pretty : Bool) {value : Value} (readable : Readable value) :
    readWithin limit (write pretty value) =
      if value.nesting ≤ limit then .ok value else .error .malformed := by
  obtain ⟨layout, blank, text⟩ : ∃ layout : Layout, layout.Blank ∧
      (write pretty value).toList = written layout 0 value := by
    cases pretty
    · exact ⟨.compact, Layout.compact_blank, by simp [write, compact_written 0]⟩
    · exact ⟨.indented, Layout.indented_blank, by simp [write, indented_written]⟩
  have reads := reads_back blank readable limit [] .value 0 (Nat.zero_le limit) (.inl rfl)
  rw [List.length_nil, Nat.zero_add] at reads
  change (feed limit ⟨[], .value⟩ (write pretty value).toList).bind finish = _
  rw [text]
  split
  · next room =>
    obtain ⟨state, fed, finished⟩ := reads.taken room
    rw [fed]
    exact finished.ends
  · next tight =>
    rw [reads.refused tight]
    rfl

end TreeDelta.Json
