import TreeDelta.Proofs.Json.ReadBack

/-!
# What the reader gives

A value that has been read is one that fits: no two keys of an object in it are the same, because a
key that comes again replaces its field, and it opens no more containers at once than the reader
admits, because a bracket that is one too many is never taken.

While a text is read, the same is true of everything that has been gathered: a value that stands in
so many open containers has only the rest of them left to open. One character preserves this, so a
whole text does.
-/

namespace TreeDelta.Json

/-- The values in which no object has two fields of the same key. -/
inductive Value.KeysDiffer : Value → Prop where
  | null : KeysDiffer .null
  | bool (flag : Bool) : KeysDiffer (.bool flag)
  | number (number : Number) : KeysDiffer (.number number)
  | string (text : String) : KeysDiffer (.string text)
  | array {elements : List Value} (below : ∀ element ∈ elements, KeysDiffer element) :
    KeysDiffer (.array elements)
  | object {fields : List (String × Value)} (differ : (fields.map Prod.fst).Nodup)
    (below : ∀ field ∈ fields, KeysDiffer field.2) : KeysDiffer (.object fields)

/-- A step that is taken after another one is taken where that one has led. -/
theorem ok_of_bind {ε α β : Type} {first : Except ε α} {further : α → Except ε β} {result : β}
    (taken : first.bind further = .ok result) :
    ∃ middle, first = .ok middle ∧ further middle = .ok result := by
  cases first with
  | error refusal => cases taken
  | ok middle => exact ⟨middle, rfl, taken⟩

/-- A value that fits where `room` more containers may be opened. -/
structure Value.Admitted (room : Nat) (value : Value) : Prop where
  differ : value.KeysDiffer
  fits : value.nesting ≤ room

variable {limit room : Nat}

/-- What opens no container fits everywhere. -/
theorem Value.Admitted.plain {value : Value} (differ : value.KeysDiffer)
    (flat : value.nesting = 0) : value.Admitted room :=
  ⟨differ, flat ▸ Nat.zero_le room⟩

/-- Elements that fit inside an array fit with it. -/
theorem Value.Admitted.array {elements : List Value} (below : ∀ element ∈ elements,
    element.Admitted room) : (Value.array elements).Admitted (room + 1) := by
  refine ⟨.array fun element member => (below element member).differ, ?_⟩
  rw [nesting, Nat.add_le_add_iff_right, nesting_elements_le]
  exact fun element member => (below element member).fits

/-- Fields that have been gathered for an object: their keys differ and their values fit. -/
structure FieldsAdmitted (room : Nat) (fields : List (String × Value)) : Prop where
  differ : (fields.map Prod.fst).Nodup
  below : ∀ field ∈ fields, field.2.Admitted room

/-- Fields that fit inside an object fit with it. -/
theorem FieldsAdmitted.object {fields : List (String × Value)}
    (admitted : FieldsAdmitted room fields) : (Value.object fields).Admitted (room + 1) := by
  refine ⟨.object admitted.differ fun field member => (admitted.below field member).differ, ?_⟩
  rw [Value.nesting, Nat.add_le_add_iff_right, Value.nesting_fields_le]
  exact fun field member => (admitted.below field member).fits

/-- An object has no fields before the first. -/
theorem fields_admitted_nil : FieldsAdmitted room [] := ⟨List.nodup_nil, by simp⟩

/-- The keys after a field has been put are those before and its own. -/
theorem mem_keys_put {key other : String} {value : Value} {fields : List (String × Value)} :
    other ∈ (putField key value fields).map Prod.fst ↔
      other = key ∨ other ∈ fields.map Prod.fst := by
  induction fields with
  | nil => simp [putField]
  | cons entry rest inductionHypothesis =>
    obtain ⟨present, old⟩ := entry
    rw [putField]
    split
    · next same =>
      subst same
      simp
    · rw [List.map_cons, List.mem_cons, inductionHypothesis, List.map_cons, List.mem_cons]
      exact or_left_comm

/-- What has been put is the field itself or was there before. -/
theorem mem_of_put {key : String} {value : Value} {fields : List (String × Value)}
    {field : String × Value} (member : field ∈ putField key value fields) :
    field = (key, value) ∨ field ∈ fields := by
  induction fields with
  | nil => simpa [putField] using member
  | cons entry rest inductionHypothesis =>
    obtain ⟨present, old⟩ := entry
    rw [putField] at member
    split at member
    · exact (List.mem_cons.mp member).imp_right (List.mem_cons_of_mem _)
    · rcases List.mem_cons.mp member with rfl | later
      · exact .inr List.mem_cons_self
      · exact (inductionHypothesis later).imp_right (List.mem_cons_of_mem _)

/-- Keys differ after a field has been put, whether its key was there or not. -/
theorem keys_put_nodup {key : String} {value : Value} {fields : List (String × Value)}
    (differ : (fields.map Prod.fst).Nodup) :
    ((putField key value fields).map Prod.fst).Nodup := by
  induction fields with
  | nil => simp [putField]
  | cons entry rest inductionHypothesis =>
    obtain ⟨present, old⟩ := entry
    rw [List.map_cons, List.nodup_cons] at differ
    rw [putField]
    split
    · next same =>
      subst same
      exact List.nodup_cons.mpr differ
    · next other =>
      rw [List.map_cons, List.nodup_cons, mem_keys_put]
      exact ⟨fun again => again.elim other differ.1, inductionHypothesis differ.2⟩

/-- Fields still fit when a value that fits has been put among them. -/
theorem FieldsAdmitted.put {fields : List (String × Value)} (admitted : FieldsAdmitted room fields)
    (key : String) {value : Value} (fits : value.Admitted room) :
    FieldsAdmitted room (putField key value fields) where
  differ := keys_put_nodup admitted.differ
  below field member := by
    rcases mem_of_put member with rfl | present
    · exact fits
    · exact admitted.below field present

/-! ### States -/

/-- What an open container has gathered fits inside it. -/
def Frame.Admitted (room : Nat) : Frame → Prop
  | .array elements => ∀ element ∈ elements, element.Admitted room
  | .object fields _ => FieldsAdmitted room fields

/-- No more containers are open than the reader admits, and what each has gathered fits into those
that may still be opened inside it. -/
def FramesAdmitted (limit : Nat) : List Frame → Prop
  | [] => True
  | frame :: outer =>
    outer.length < limit ∧ frame.Admitted (limit - (outer.length + 1)) ∧ FramesAdmitted limit outer

/-- What the reader holds beside the open containers fits where it stands. Keys and the ends of
containers are only expected inside one. -/
def ModeAdmitted (limit : Nat) (frames : List Frame) : Mode → Prop
  | .firstElement | .firstKey => frames ≠ []
  | .nextKey fields | .colon fields _ | .string (.key fields) _ _ =>
    frames ≠ [] ∧ FieldsAdmitted (limit - frames.length) fields
  | .done value | .word _ value => value.Admitted (limit - frames.length)
  | .value | .string .value _ _ | .numeral _ _ => True

/-- A state in which everything that has been gathered fits. -/
structure ReadState.Admitted (limit : Nat) (state : ReadState) : Prop where
  frames : FramesAdmitted limit state.frames
  mode : ModeAdmitted limit state.frames state.mode

variable {frames : List Frame} {next : ReadState} {c : Char}

/-- A container that may be opened leaves room for one container less inside it. -/
theorem room_inside {frame : Frame} (admitted : FramesAdmitted limit (frame :: frames)) :
    limit - frames.length = limit - (frame :: frames).length + 1 := by
  have opened := admitted.1
  rw [List.length_cons]
  omega

/-- What is closed fits where its container stood. -/
theorem done_admitted {frame : Frame} (admitted : FramesAdmitted limit (frame :: frames))
    {value : Value} (fits : value.Admitted (limit - (frame :: frames).length + 1)) :
    ReadState.Admitted limit ⟨frames, .done value⟩ :=
  ⟨admitted.2.2, show value.Admitted (limit - frames.length) from room_inside admitted ▸ fits⟩

/-- A container that is opened is empty and no more than the reader admits. -/
theorem open_admitted (admitted : FramesAdmitted limit frames) {frame : Frame} {mode : Mode}
    (empty : ∀ room, frame.Admitted room)
    (inside : ModeAdmitted limit (frame :: frames) mode)
    (opened : openContainer limit frames frame mode = .ok next) : next.Admitted limit := by
  unfold openContainer at opened
  split at opened
  · next room =>
    obtain rfl := Except.ok.inj opened
    exact ⟨⟨room, empty _, admitted⟩, inside⟩
  · cases opened

/-- The first character of a value leaves a state in which everything fits. -/
theorem start_admitted (admitted : FramesAdmitted limit frames)
    (started : startValue limit frames c = .ok next) : next.Admitted limit := by
  unfold startValue at started
  split at started
  · obtain rfl := Except.ok.inj started
    exact ⟨admitted, trivial⟩
  split at started
  · refine open_admitted admitted (fun room => ?_) ?_ started
    · simp [Frame.Admitted]
    · exact List.cons_ne_nil _ _
  split at started
  · refine open_admitted admitted (fun room => ?_) ?_ started
    · exact fields_admitted_nil
    · exact List.cons_ne_nil _ _
  split at started
  · obtain rfl := Except.ok.inj started
    exact ⟨admitted, .plain .null rfl⟩
  split at started
  · obtain rfl := Except.ok.inj started
    exact ⟨admitted, .plain (.bool true) rfl⟩
  split at started
  · obtain rfl := Except.ok.inj started
    exact ⟨admitted, .plain (.bool false) rfl⟩
  split at started
  · obtain rfl := Except.ok.inj started
    exact ⟨admitted, trivial⟩
  · cases started

/-- A character after a finished value leaves a state in which everything fits: a comma gathers the
value, and a bracket closes its container around it. -/
theorem after_admitted {value : Value} (admitted : ReadState.Admitted limit ⟨frames, .done value⟩)
    (taken : afterValue frames value c = .ok next) : next.Admitted limit := by
  obtain ⟨framesFit, fits⟩ := admitted
  change value.Admitted (limit - frames.length) at fits
  unfold afterValue at taken
  split at taken
  · obtain rfl := Except.ok.inj taken
    exact ⟨framesFit, fits⟩
  split at taken
  · cases taken
  · next elements outer =>
    have gathered : ∀ element ∈ value :: elements,
        element.Admitted (limit - (outer.length + 1)) :=
      List.forall_mem_cons.mpr ⟨fits, framesFit.2.1⟩
    split at taken
    · obtain rfl := Except.ok.inj taken
      exact ⟨⟨framesFit.1, gathered, framesFit.2.2⟩, trivial⟩
    split at taken
    · obtain rfl := Except.ok.inj taken
      refine done_admitted framesFit (.array fun element member => ?_)
      exact gathered element (List.mem_reverse.mp member)
    · cases taken
  · next fields key outer =>
    have gathered := FieldsAdmitted.put framesFit.2.1 key fits
    split at taken
    · obtain rfl := Except.ok.inj taken
      exact ⟨framesFit, List.cons_ne_nil _ _, gathered⟩
    split at taken
    · obtain rfl := Except.ok.inj taken
      exact done_admitted framesFit gathered.object
    · cases taken

/-- A numeral that has ended fits everywhere. -/
theorem numeral_admitted {numeral : Numeral} {value : Value}
    (finished : finishNumeral numeral = .ok value) : value.Admitted room := by
  unfold finishNumeral at finished
  split at finished
  · next number _ =>
    obtain rfl := Except.ok.inj finished
    exact .plain (.number number) rfl
  · cases finished

/-- After a string everything still fits, whether it was a value or a key. -/
theorem string_admitted {role : StringRole} {gathered : List Char} {escape : EscapeState}
    (admitted : ReadState.Admitted limit ⟨frames, .string role gathered escape⟩) :
    ReadState.Admitted limit ⟨frames, finishString role gathered⟩ := by
  cases role with
  | value => exact ⟨admitted.frames, .plain (.string _) rfl⟩
  | key fields => exact ⟨admitted.frames, admitted.mode⟩

/-- A character that may separate symbols leaves the state as it is, so everything depends on what
is done with the others. -/
theorem skip_admitted {state : ReadState} (admitted : state.Admitted limit)
    {beyond : Except ReadError ReadState}
    (taken : (if isSeparator c then .ok state else beyond) = .ok next)
    (otherwise : beyond = .ok next → next.Admitted limit) : next.Admitted limit := by
  split at taken
  · obtain rfl := Except.ok.inj taken
    exact admitted
  · exact otherwise taken

/-- A character inside a string leaves a state in which everything fits. -/
theorem inside_string_admitted {role : StringRole} {gathered : List Char} {escape : EscapeState}
    (admitted : ReadState.Admitted limit ⟨frames, .string role gathered escape⟩)
    (taken : step limit ⟨frames, .string role gathered escape⟩ c = .ok next) :
    next.Admitted limit := by
  simp only [step] at taken
  split at taken
  · obtain rfl := Except.ok.inj taken
    exact string_admitted admitted
  · obtain ⟨extended, -, taken⟩ := ok_of_bind taken
    obtain rfl := Except.ok.inj taken
    cases role with
    | value => exact ⟨admitted.frames, trivial⟩
    | key fields => exact ⟨admitted.frames, admitted.mode⟩

/-- One character leaves a state in which everything fits.

There is one case for each mode of the reader. Most characters only change the mode;
`start_admitted` opens containers within the limit, and `after_admitted` closes gathered values. -/
theorem step_admitted {state : ReadState} (admitted : state.Admitted limit)
    (taken : step limit state c = .ok next) : next.Admitted limit := by
  obtain ⟨frames, mode⟩ := state
  obtain ⟨framesFit, modeFits⟩ := admitted
  cases mode with
  | value => exact skip_admitted ⟨framesFit, modeFits⟩ taken (start_admitted framesFit)
  | firstElement =>
    refine skip_admitted ⟨framesFit, modeFits⟩ taken fun taken => ?_
    split at taken
    · obtain rfl := Except.ok.inj taken
      obtain ⟨frame, outer, rfl⟩ := List.exists_cons_of_ne_nil modeFits
      exact done_admitted framesFit (.array (by simp))
    · exact start_admitted framesFit taken
  | firstKey =>
    refine skip_admitted ⟨framesFit, modeFits⟩ taken fun taken => ?_
    split at taken
    · obtain rfl := Except.ok.inj taken
      obtain ⟨frame, outer, rfl⟩ := List.exists_cons_of_ne_nil modeFits
      exact done_admitted framesFit fields_admitted_nil.object
    split at taken
    · obtain rfl := Except.ok.inj taken
      exact ⟨framesFit, modeFits, fields_admitted_nil⟩
    · cases taken
  | nextKey fields =>
    refine skip_admitted ⟨framesFit, modeFits⟩ taken fun taken => ?_
    split at taken
    · obtain rfl := Except.ok.inj taken
      exact ⟨framesFit, modeFits⟩
    · cases taken
  | colon fields key =>
    refine skip_admitted ⟨framesFit, modeFits⟩ taken fun taken => ?_
    split at taken
    · obtain rfl := Except.ok.inj taken
      obtain ⟨frame, outer, rfl⟩ := List.exists_cons_of_ne_nil modeFits.1
      exact ⟨⟨framesFit.1, modeFits.2, framesFit.2.2⟩, trivial⟩
    · cases taken
  | done value => exact after_admitted ⟨framesFit, modeFits⟩ taken
  | word rest value =>
    cases rest with
    | nil => exact after_admitted ⟨framesFit, modeFits⟩ taken
    | cons expected rest =>
      simp only [step] at taken
      split at taken
      · obtain rfl := Except.ok.inj taken
        refine ⟨framesFit, ?_⟩
        split <;> exact modeFits
      · cases taken
  | string role gathered escape => exact inside_string_admitted ⟨framesFit, modeFits⟩ taken
  | numeral numeral numeralState =>
    simp only [step] at taken
    split at taken
    · obtain rfl := Except.ok.inj taken
      exact ⟨framesFit, trivial⟩
    split at taken
    · obtain ⟨value, finished, taken⟩ := ok_of_bind taken
      exact after_admitted ⟨framesFit, numeral_admitted finished⟩ taken
    · cases taken

/-- A text leaves a state in which everything fits. -/
theorem feed_admitted {state : ReadState} (admitted : state.Admitted limit) {text : List Char}
    (fed : feed limit state text = .ok next) : next.Admitted limit := by
  induction text generalizing state with
  | nil =>
    obtain rfl := Except.ok.inj fed
    exact admitted
  | cons c rest inductionHypothesis =>
    rw [feed_cons] at fed
    obtain ⟨middle, taken, fed⟩ := ok_of_bind fed
    exact inductionHypothesis (step_admitted admitted taken) fed

/-- What a text ends in fits where nothing is open. -/
theorem finish_admitted {state : ReadState} (admitted : state.Admitted limit) {value : Value}
    (finished : finish state = .ok value) : value.Admitted limit := by
  obtain ⟨frames, mode⟩ := state
  cases mode with
  | done last =>
    simp only [finish] at finished
    split at finished
    · next closed =>
      obtain rfl := Except.ok.inj finished
      obtain rfl := List.isEmpty_iff.mp closed
      exact admitted.mode
    · cases finished
  | numeral numeral numeralState =>
    simp only [finish] at finished
    split at finished
    · obtain ⟨number, ended, finished⟩ := ok_of_bind finished
      split at finished
      · obtain rfl := Except.ok.inj finished
        exact numeral_admitted ended
      · cases finished
    · cases finished
  | value | firstElement | firstKey | nextKey | colon | word | string => cases finished

/-- A value that has been read fits into the reader: no object in it has two fields of the same key,
and it opens no more containers at once than the reader admits. -/
theorem read_admitted {text : String} {value : Value}
    (read : readWithin limit text = .ok value) : value.Admitted limit := by
  obtain ⟨state, fed, finished⟩ := ok_of_bind read
  have start : ReadState.Admitted limit ⟨[], .value⟩ := ⟨trivial, trivial⟩
  exact finish_admitted (feed_admitted start fed) finished

end TreeDelta.Json
