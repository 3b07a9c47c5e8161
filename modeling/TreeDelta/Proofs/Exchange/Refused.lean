import TreeDelta.Proofs.Exchange.NodeObjects

/-!
# What is wrong with a value that is no tree

A decoding error says what is wrong and where: a trail of keys that leads from the value to one
inside it, through the children of objects, and what that value should not be. Both are true. The
own fields of a node and the order of its children are refused at the node itself, and a child is
refused at the child, with one key more in front. A key that is taken is noticed at the second
mention of a child, and it is a fault of the node that mentions it twice: as long as the keys of an
object differ, nothing else lets two children of a node have one key.

One level is looked at first, with the children decoded as they may be. A child is smaller than the
object that holds it, so all levels follow by induction on the value.
-/

namespace TreeDelta.Exchange

open Json (Value)

/-- The keys that lead to the value at fault. -/
def DecodeError.trail : DecodeError → Trail
  | notAnObject trail => trail
  | missingType trail => trail
  | invalidField trail _ => trail
  | unknownChild trail _ => trail
  | violation trail _ => trail

/-- The place of the value at fault, as the message of an error names it. -/
def DecodeError.place (error : DecodeError) : String := Trail.text error.trail

/-- Whether an object holds a value as the child with a key. The elements of an array have their
positions as keys. -/
inductive HoldsChild : Value → String → Value → Prop where
  | entry {fields entries : List (String × Value)} {relation : String} {child : Value}
    (found : fields.lookup Field.children.name = some (.object entries))
    (held : entries.lookup relation = some child) : HoldsChild (.object fields) relation child
  | element {fields : List (String × Value)} {elements : List Value} {index : Nat} {child : Value}
    (found : fields.lookup Field.children.name = some (.array elements))
    (held : elements[index]? = some child) : HoldsChild (.object fields) (toString index) child

/-- Whether a trail leads from a value to one inside it. -/
inductive LeadsTo : Value → Trail → Value → Prop where
  | here (value : Value) : LeadsTo value [] value
  | child {value child target : Value} {relation : String} {further : Trail}
    (held : HoldsChild value relation child) (below : LeadsTo child further target) :
    LeadsTo value (relation :: further) target

/-- Whether a value has the form that a field must have, unless it is missing. -/
def Field.Form : Field → Value → Prop
  | type | value | id => IsText
  | sourceStart | sourceEnd => IsLocation
  | children => fun held => (∃ elements, held = .array elements) ∨ ∃ entries, held = .object entries
  | childrenOrder => IsTexts

/-- Whether what an error says is wrong is wrong about the value at fault. -/
def DecodeError.TrueOf : DecodeError → Value → Prop
  | notAnObject _, value => ∀ fields, value ≠ .object fields
  | missingType _, value => ∃ fields, value = .object fields ∧ Missing fields .type
  | invalidField _ field, value => ∃ fields held, value = .object fields ∧
      fields.lookup field.name = some held ∧ held ≠ .null ∧ ¬ field.Form held
  | unknownChild _ relation, value => ∃ fields entries, value = .object fields ∧
      fields.lookup Field.children.name = some (.object entries) ∧
      relation ∈ listedKeys fields ∧ relation ∉ entries.map Prod.fst
  | violation _ .emptyKind, value => ∃ fields, value = .object fields ∧
      fields.lookup Field.type.name = some (.string "")
  | violation _ (.relationInUse relation), value => ∃ fields, value = .object fields ∧
      1 < (listedKeys fields).count relation
  | violation _ .wouldCycle, _ => False

variable {trail : Trail} {fields entries : List (String × Value)} {error : DecodeError}

/-- Whether an error is about an object and true of it. -/
def Blames (trail : Trail) (fields : List (String × Value)) (error : DecodeError) : Prop :=
  error.trail = trail ∧ error.TrueOf (.object fields)

/-! ### Own fields -/

/-- A type is refused if it is missing, empty or no string. -/
theorem required_kind_error (refused : requiredKind trail fields = .error error) :
    Blames trail fields error := by
  unfold requiredKind at refused
  split at refused
  · next absent =>
    obtain rfl := Except.error.inj refused
    exact ⟨rfl, fields, rfl, .inl absent⟩
  · next null =>
    obtain rfl := Except.error.inj refused
    exact ⟨rfl, fields, rfl, .inr null⟩
  · next kind found =>
    split at refused
    · next empty =>
      obtain rfl := Except.error.inj refused
      exact ⟨rfl, fields, rfl, empty ▸ found⟩
    · cases refused
  · next held notNull noText found =>
    obtain rfl := Except.error.inj refused
    refine ⟨rfl, fields, held, rfl, found, notNull, ?_⟩
    rintro ⟨text, rfl⟩
    exact noText text rfl

/-- A field that may hold a string is refused if it holds something else. -/
theorem optional_string_error {field : Field} (text : field.Form = IsText)
    (refused : optionalString trail fields field = .error error) : Blames trail fields error := by
  unfold optionalString at refused
  split at refused
  · cases refused
  · cases refused
  · cases refused
  · next held notNull noText found =>
    obtain rfl := Except.error.inj refused
    refine ⟨rfl, fields, held, rfl, found, notNull, ?_⟩
    rw [text]
    rintro ⟨present, rfl⟩
    exact noText present rfl

/-- A field that may hold a location is refused if it holds something else. -/
theorem optional_location_error {field : Field} (location : field.Form = IsLocation)
    (refused : optionalLocation trail fields field = .error error) : Blames trail fields error := by
  unfold optionalLocation at refused
  split at refused
  · cases refused
  · cases refused
  · next held notNull found =>
    split at refused
    · cases refused
    · next unread =>
      obtain rfl := Except.error.inj refused
      refine ⟨rfl, fields, held, rfl, found, notNull, ?_⟩
      rw [location]
      rintro ⟨line, column, lineSmall, columnSmall, rfl⟩
      have fits : Location.Fits ⟨line, column⟩ := ⟨lineSmall, columnSmall⟩
      have read := location_encoded fits
      exact Option.some_ne_none _ (read.symm.trans unread)

/-- What is refused of the own fields of a node is wrong with one of them. -/
theorem decode_fields_error (refused : decodeFields trail fields = .error error) :
    Blames trail fields error := by
  rcases bind_error.mp refused with type | ⟨kind, _, refused⟩
  · exact required_kind_error type
  rcases bind_error.mp refused with value | ⟨value?, _, refused⟩
  · exact optional_string_error rfl value
  rcases bind_error.mp refused with id | ⟨id?, _, refused⟩
  · exact optional_string_error rfl id
  rcases bind_error.mp refused with start | ⟨start?, _, refused⟩
  · exact optional_location_error rfl start
  rcases bind_error.mp refused with stop | ⟨stop?, _, refused⟩
  · exact optional_location_error rfl stop
  · cases refused

/-! ### The order of the children -/

/-- An order that cannot be followed mentions something else than a string, or a key that no child
has. -/
theorem rearrange_error {order : List Value}
    (children : fields.lookup Field.children.name = some (.object entries))
    (listed : fields.lookup Field.childrenOrder.name = some (.array order))
    (refused : rearrange trail (entries.map (candidate trail)) order = .error error) :
    Blames trail fields error := by
  rcases bind_error.mp refused with stopped | ⟨chosen, _, refused⟩
  · obtain ⟨mention, member, here⟩ := map_error stopped
    split at here
    · next relation =>
      rw [lookup_candidate] at here
      cases found : entries.lookup relation with
      | some child =>
        rw [found] at here
        cases here
      | none =>
        rw [found] at here
        obtain rfl := Except.error.inj here
        refine ⟨rfl, fields, entries, rfl, children, ?_, fun known => ?_⟩
        · rw [listedKeys, listed]
          exact List.mem_filterMap.mpr ⟨_, member, rfl⟩
        · obtain ⟨child, present⟩ := lookup_of_key known
          rw [present] at found
          cases found
    · next noText =>
      obtain rfl := Except.error.inj here
      refine ⟨rfl, fields, .array order, rfl, listed, by simp, ?_⟩
      rintro ⟨texts, same⟩
      obtain rfl := Value.array.inj same
      obtain ⟨text, _, rfl⟩ := List.mem_map.mp member
      exact noText text rfl
  · cases refused

/-- Children are refused as a whole if they are neither an object nor an array, or if their order
cannot be followed. -/
theorem arrange_error
    (refused : arrange trail fields (candidatesAmong trail fields) = .error error) :
    Blames trail fields error := by
  rw [candidates_among_eq] at refused
  cases found : fields.lookup Field.children.name with
  | none =>
    rw [found] at refused
    cases refused
  | some held =>
    rw [found] at refused
    cases held with
    | null => cases refused
    | array elements => cases refused
    | object entries =>
      have decoded : decodeEntries trail entries = entries.map (candidate trail) :=
        decode_entries_eq trail entries
      simp only [candidatesOf, decoded, arrange] at refused
      split at refused
      · cases refused
      · cases refused
      · next order listed => exact rearrange_error found listed refused
      · next held notNull noArray listed =>
        obtain rfl := Except.error.inj refused
        refine ⟨rfl, fields, held, rfl, listed, notNull, ?_⟩
        rintro ⟨texts, rfl⟩
        exact noArray _ rfl
    | bool | number | string =>
      obtain rfl := Except.error.inj refused
      exact ⟨rfl, fields, _, rfl, found, by simp, by simp [Field.Form]⟩

/-! ### The children -/

/-- Children are not collected if one of them is refused, or if a key is taken or comes twice. -/
theorem collect_error {taken : List String} {candidates : List Candidate}
    (refused : collect trail taken candidates = .error error) :
    (∃ candidate ∈ candidates, candidate.2 = .error error) ∨
      ∃ relation ∈ candidates.map Prod.fst, error = .violation trail (.relationInUse relation) ∧
        (relation ∈ taken ∨ 1 < (candidates.map Prod.fst).count relation) := by
  induction candidates generalizing taken with
  | nil => cases refused
  | cons first rest inductionHypothesis =>
    obtain ⟨relation, child⟩ := first
    rcases bind_error.mp refused with here | ⟨tree, _, refused⟩
    · exact .inl ⟨_, List.mem_cons_self, here⟩
    split at refused
    · next inUse =>
      exact .inr ⟨relation, by simp, (Except.error.inj refused).symm, .inl inUse⟩
    rcases bind_error.mp refused with later | ⟨branches, _, refused⟩
    · rcases inductionHypothesis later with ⟨candidate, member, there⟩ |
        ⟨other, member, rfl, takenThere | twice⟩
      · exact .inl ⟨candidate, List.mem_cons_of_mem _ member, there⟩
      · refine .inr ⟨other, List.mem_cons_of_mem _ member, rfl, ?_⟩
        -- The key of the first child is taken for the others.
        rcases List.mem_cons.mp takenThere with rfl | before
        · have again := List.count_pos_iff.mpr member
          exact .inr (by rw [List.map_cons, List.count_cons_self]; omega)
        · exact .inl before
      · refine .inr ⟨other, List.mem_cons_of_mem _ member, rfl, .inr ?_⟩
        exact twice.trans_le (List.count_le_count_cons ..)
    · cases refused

/-- As long as keys differ, a key that comes twice among the children in order is listed twice. -/
theorem listed_twice (differ : (Value.object fields).KeysDiffer) (arranged : Arranged fields)
    {relation : String} (twice : 1 < ((orderedChildren fields).map Prod.fst).count relation) :
    1 < (listedKeys fields).count relation := by
  cases arranged with
  | none missing =>
    rcases missing with absent | null
    · simp [orderedChildren, absent] at twice
    · simp [orderedChildren, null] at twice
  | listed found =>
    simp only [orderedChildren, found] at twice
    exact absurd twice (Nat.not_lt.mpr (List.nodup_iff_count_le_one.mp (positions_nodup _) _))
  | @keyed entries found order =>
    simp only [orderedChildren, found, listedFirst, List.map_append, listed_keys order.known,
      List.count_append] at twice
    by_cases listed : relation ∈ listedKeys fields
    · have others : relation ∉
          (entries.filter fun entry => entry.1 ∉ listedKeys fields).map Prod.fst := fun again => by
        obtain ⟨entry, member, rfl⟩ := List.mem_map.mp again
        exact of_decide_eq_true (List.mem_filter.mp member).2 listed
      rwa [List.count_eq_zero.mpr others, Nat.add_zero] at twice
    · have once : ((entries.filter fun entry => entry.1 ∉ listedKeys fields).map Prod.fst).Nodup :=
        (children_differ differ found).sublist (List.filter_sublist.map Prod.fst)
      have atMost := List.nodup_iff_count_le_one.mp once relation
      rw [List.count_eq_zero.mpr listed, Nat.zero_add] at twice
      exact absurd twice (Nat.not_lt.mpr atMost)

/-- As long as keys differ, an object holds each of the children in order under its key. -/
theorem held_of_ordered (differ : (Value.object fields).KeysDiffer) {entry : String × Value}
    (listed : entry ∈ orderedChildren fields) : HoldsChild (.object fields) entry.1 entry.2 := by
  unfold orderedChildren at listed
  split at listed
  · next elements found =>
    obtain ⟨index, inside, rfl⟩ := List.mem_mapIdx.mp listed
    exact .element found (List.getElem?_eq_getElem inside)
  · next entries found =>
    exact .entry found
      (Named.lookup_named (children_differ differ found) (mem_of_listed_first listed))
  · cases listed

/-- A child is smaller than the object that holds it. -/
theorem HoldsChild.smaller {value child : Value} {relation : String}
    (held : HoldsChild value relation child) : sizeOf child < sizeOf value := by
  cases held with
  | entry found held =>
    have outer := List.sizeOf_lt_of_mem (mem_of_looked_up found)
    have inner := List.sizeOf_lt_of_mem (mem_of_looked_up held)
    simp only [Prod.mk.sizeOf_spec, Value.object.sizeOf_spec] at outer inner ⊢
    omega
  | element found held =>
    have outer := List.sizeOf_lt_of_mem (mem_of_looked_up found)
    have inner := List.sizeOf_lt_of_mem (List.mem_of_getElem? held)
    simp only [Prod.mk.sizeOf_spec, Value.array.sizeOf_spec, Value.object.sizeOf_spec]
      at outer inner ⊢
    omega

/-- Keys differ in a child if they do in the object that holds it. -/
theorem HoldsChild.differ {value child : Value} {relation : String}
    (held : HoldsChild value relation child) (differ : value.KeysDiffer) : child.KeysDiffer := by
  cases held with
  | entry found held =>
    cases differ with
    | object _ below =>
      cases below _ (mem_of_looked_up found) with
      | object _ each => exact each _ (mem_of_looked_up held)
  | element found held =>
    cases differ with
    | object _ below =>
      cases below _ (mem_of_looked_up found) with
      | array each => exact each _ (List.mem_of_getElem? held)

/-- A child is refused where its value is: null never is. -/
theorem refused_child {entry : String × Value}
    (refused : (candidate trail entry).2 = .error error) :
    decodeAt (trail ++ [entry.1]) entry.2 = .error error := by
  by_cases null : entry.2 = .null
  · rw [candidate, null] at refused
    cases refused
  · rwa [candidate, of_child_there null] at refused

/-! ### All levels -/

/-- What is said of a value that is refused, wherever it stands, is true of the value that the trail
leads to from there.

The recursion is on the value. An error of the node's own fields, of their order or of a repeated
key is true of the value itself, at the end of the empty way. One of a child is true further on, one
step behind the child's key. -/
theorem decode_at_error (trail : Trail) (value : Value) (differ : value.KeysDiffer)
    (refused : decodeAt trail value = .error error) :
    ∃ further target, error.trail = trail ++ further ∧ LeadsTo value further target ∧
      error.TrueOf target := by
  cases shape : value with
  | object fields =>
    rw [shape] at differ refused
    have here (blamed : Blames trail fields error) :
        ∃ further target, error.trail = trail ++ further ∧
          LeadsTo (.object fields) further target ∧ error.TrueOf target :=
      ⟨[], _, by rw [blamed.1, List.append_nil], .here _, blamed.2⟩
    rw [decodeAt] at refused
    rcases bind_error.mp refused with own | ⟨top, _, refused⟩
    · exact here (decode_fields_error own)
    rcases bind_error.mp refused with order | ⟨ordered, done, refused⟩
    · exact here (arrange_error order)
    rcases bind_error.mp refused with children | ⟨branches, _, refused⟩
    · have arranged := arranged_of_ok done
      obtain rfl := Except.ok.inj ((arrange_arranged trail arranged).symm.trans done)
      rcases collect_error children with ⟨_, member, stopped⟩ | ⟨relation, _, rfl, taken | twice⟩
      · obtain ⟨entry, listed, rfl⟩ := List.mem_map.mp member
        have held := held_of_ordered differ listed
        obtain ⟨further, target, place, below, isTrue⟩ :=
          decode_at_error (trail ++ [entry.1]) entry.2 (held.differ differ) (refused_child stopped)
        exact ⟨entry.1 :: further, target, by simpa using place, .child held below, isTrue⟩
      · cases taken
      · rw [List.map_map] at twice
        exact here ⟨rfl, fields, rfl, listed_twice differ arranged twice⟩
    · cases refused
  | null | bool | number | string | array =>
    rw [shape, decodeAt] at refused
    · obtain rfl := Except.error.inj refused
      exact ⟨[], _, (List.append_nil trail).symm, .here _, by simp [DecodeError.TrueOf]⟩
    · simp
termination_by sizeOf value
decreasing_by exact shape ▸ held.smaller

/-- The message of an error names the place of the value at fault. -/
theorem place_in_message (error : DecodeError) :
    ∃ before behind, error.message = before ++ error.place ++ behind := by
  cases error with
  | notAnObject trail => exact ⟨"expected a node object at ", "", (String.append_empty).symm⟩
  | missingType trail =>
    exact ⟨"node at ", " is missing " ++ Text.quoted "type", (String.append_assoc ..)⟩
  | invalidField trail field =>
    refine ⟨"field " ++ Text.quoted field.name ++ " at ", " must be " ++ field.expected, ?_⟩
    exact String.append_assoc ..
  | unknownChild trail relation =>
    refine ⟨"childrenOrder at ", " names unknown child " ++ Text.quoted relation, ?_⟩
    exact String.append_assoc ..
  | violation trail broken =>
    exact ⟨"at ", ": " ++ broken.message, String.append_assoc ..⟩

/-- Whatever a value is refused for, its message names a place, a slash for the value itself and
otherwise `/children/` before each of some keys; and the keys lead from the value to one inside it
of which the error is true. -/
theorem refusal_true_at_place (value : Value) (differ : value.KeysDiffer)
    (refused : decode value = .error error) :
    ∃ target, LeadsTo value error.trail target ∧ error.TrueOf target ∧
      (∃ before behind, error.message = before ++ error.place ++ behind) ∧
      error.place = if error.trail = [] then "/"
        else String.join (error.trail.map fun relation => "/children/" ++ relation) := by
  obtain ⟨further, target, place, leads, isTrue⟩ := decode_at_error [] value differ refused
  obtain rfl : error.trail = further := place
  refine ⟨target, leads, isTrue, place_in_message error, ?_⟩
  rw [DecodeError.place, Trail.text.eq_def]
  split
  · next top => rw [if_pos top]
  · next below => rw [if_neg below]

/-- An item that lists its one child twice. -/
def wordTwice : Value :=
  .object [("type", .string "item"), ("children", .object [("word", .null)]),
    ("childrenOrder", .array [.string "word", .string "word"])]

/-- A list of an item with two children: null, and the item that lists its child twice. -/
def twiceBelow : Value :=
  .object [("type", .string "list"), ("children", .object [("first", .object
    [("type", .string "item"), ("children", .array [.null, wordTwice])])])]

/-- The second mention is refused at the item that lists its child twice. -/
theorem second_mention_refused :
    twiceBelow.KeysDiffer ∧
      decode twiceBelow = .error (.violation ["first", "1"] (.relationInUse "word")) ∧
      ∃ target, LeadsTo twiceBelow ["first", "1"] target ∧
        (DecodeError.violation ["first", "1"] (.relationInUse "word")).TrueOf target := by
  have item := Value.KeysDiffer.string "item"
  have order : (Value.array [.string "word", .string "word"]).KeysDiffer :=
    .array (by simpa using Value.KeysDiffer.string "word")
  have word : (Value.object [("word", .null)]).KeysDiffer :=
    .object (by decide) (by simpa using Value.KeysDiffer.null)
  have twice : wordTwice.KeysDiffer := .object (by decide) (by simpa using ⟨item, word, order⟩)
  have elements : (Value.array [.null, wordTwice]).KeysDiffer :=
    .array (by simpa using ⟨Value.KeysDiffer.null, twice⟩)
  have first : (Value.object
      [("type", .string "item"), ("children", .array [.null, wordTwice])]).KeysDiffer :=
    .object (by decide) (by simpa using ⟨item, elements⟩)
  have children : (Value.object [("first", .object
      [("type", .string "item"), ("children", .array [.null, wordTwice])])]).KeysDiffer :=
    .object (by simp) (by simpa using first)
  have differ : twiceBelow.KeysDiffer :=
    .object (by decide) (by simpa using ⟨Value.KeysDiffer.string "list", children⟩)
  have refused : decode twiceBelow =
      .error (.violation ["first", "1"] (.relationInUse "word")) := by
    rfl
  obtain ⟨target, leads, isTrue, _⟩ := refusal_true_at_place twiceBelow differ refused
  exact ⟨differ, refused, target, leads, isTrue⟩

end TreeDelta.Exchange
