import TreeDelta.Proofs.Exchange.RoundTrip

/-!
# The own fields of a node

What an object says of its node beside the children is said in five fields. The type must be there
and must not be empty; a value, an id and the two ends may be left out or null. A field decodes
exactly as what it holds, so the five together decode exactly when each holds something of its
form, and the node carries what they hold.
-/

namespace TreeDelta.Exchange

open Json (Value)

variable {trail : Trail} {fields : List (String × Value)} {field : Field}

/-- Whether an object says nothing in a field: it is left out or null. -/
def Missing (fields : List (String × Value)) (field : Field) : Prop :=
  fields.lookup field.name = none ∨ fields.lookup field.name = some .null

/-- Whether a field holds a value, or is missing where there is none. -/
def Holds (fields : List (String × Value)) (field : Field) : Option Value → Prop
  | none => Missing fields field
  | some value => fields.lookup field.name = some value

/-- Whether a value is a string. -/
def IsText (value : Value) : Prop := ∃ text, value = .string text

/-- Whether a value is a location: an array of two counting numbers below the bound. -/
def IsLocation (value : Value) : Prop :=
  ∃ line column, line < Location.bound ∧ column < Location.bound ∧
    value = .array [.natural line, .natural column]

/-- Whether a field is missing or holds a value of some form. -/
def MayHold (fields : List (String × Value)) (field : Field) (form : Value → Prop) : Prop :=
  Missing fields field ∨ ∃ value, fields.lookup field.name = some value ∧ form value

/-- What the own fields of a node object must hold. -/
structure OwnFields (fields : List (String × Value)) : Prop where
  type : ∃ kind, kind ≠ "" ∧ fields.lookup Field.type.name = some (.string kind)
  value : MayHold fields .value IsText
  id : MayHold fields .id IsText
  start : MayHold fields .sourceStart IsLocation
  stop : MayHold fields .sourceEnd IsLocation

/-- Whether a node carries what the own fields of an object hold, and nothing else. -/
structure Carries (fields : List (String × Value)) (node : Node) : Prop where
  kind : fields.lookup Field.type.name = some (.string node.kind)
  value : Holds fields .value (node.value?.map .string)
  id : Holds fields .id (node.id?.map .string)
  start : Holds fields .sourceStart (node.start?.map encodeLocation)
  stop : Holds fields .sourceEnd (node.stop?.map encodeLocation)

/-- An optional string decodes as what its field holds. -/
theorem optional_string_ok {text? : Option String} :
    optionalString trail fields field = .ok text? ↔ Holds fields field (text?.map .string) := by
  cases found : fields.lookup field.name with
  | none => cases text? <;> simp [optionalString, Holds, Missing, found]
  | some value => cases value <;> cases text? <;> simp [optionalString, Holds, Missing, found]

/-- A number is a coordinate if it counts and is below the bound. -/
theorem coordinate_some {value : Value} {count : Nat} :
    Location.coordinate? value = some count ↔ value = .natural count ∧ count < Location.bound := by
  constructor
  · intro decoded
    cases value with
    | number number =>
      obtain ⟨counts, small⟩ := Option.filter_eq_some_iff.mp decoded
      refine ⟨?_, of_decide_eq_true small⟩
      cases number with
      | decimal numeral => cases counts
      | integer value =>
        cases value with
        | ofNat natural =>
          obtain rfl : natural = count := Option.some.inj counts
          rfl
        | negSucc natural => cases counts
    | null | bool | string | array | object => cases decoded
  · rintro ⟨rfl, small⟩
    simp [Location.coordinate?, Value.natural, Json.Number.natural?, Option.filter, small]

/-- A value is a location if it is written as one that fits. -/
theorem location_some {value : Value} {location : Location} :
    location? value = some location ↔ value = encodeLocation location ∧ location.Fits := by
  constructor
  · intro decoded
    unfold location? at decoded
    split at decoded
    · next first second =>
      obtain ⟨line, lineDecoded, decoded⟩ := Option.bind_eq_some_iff.mp decoded
      obtain ⟨column, columnDecoded, decoded⟩ := Option.bind_eq_some_iff.mp decoded
      obtain rfl : Location.mk line column = location := Option.some.inj decoded
      obtain ⟨rfl, lineSmall⟩ := coordinate_some.mp lineDecoded
      obtain ⟨rfl, columnSmall⟩ := coordinate_some.mp columnDecoded
      exact ⟨rfl, lineSmall, columnSmall⟩
    · cases decoded
  · rintro ⟨rfl, fits⟩
    exact location_encoded fits

/-- An optional location decodes as what its field holds, if that fits.

The cases are whether the field is missing, null, or anything else; in the last one what a location
is decoded from is known exactly. -/
theorem optional_location_ok {location? : Option Location} :
    optionalLocation trail fields field = .ok location? ↔
      Holds fields field (location?.map encodeLocation) ∧
        ∀ location ∈ location?, location.Fits := by
  cases found : fields.lookup field.name with
  | none => cases location? <;> simp [optionalLocation, Holds, Missing, found, encodeLocation]
  | some value =>
    by_cases null : value = .null
    · subst null
      cases location? <;> simp [optionalLocation, Holds, Missing, found, encodeLocation]
    · have decodes : optionalLocation trail fields field =
          (Exchange.location? value).elim (.error (.invalidField trail field))
            fun location => .ok (some location) := by
        rw [optionalLocation, found]
        split
        · next absurdity => cases absurdity
        · next same => exact absurd (Option.some.inj same) null
        · next same =>
          obtain rfl := Option.some.inj same
          cases Exchange.location? _ <;> rfl
      rw [decodes]
      cases location? with
      | none =>
        cases decoded : Exchange.location? value <;> simp [Holds, Missing, found, null]
      | some location =>
        have form : Exchange.location? value = some location ↔
          value = encodeLocation location ∧ location.Fits := location_some
        cases decoded : Exchange.location? value with
        | none =>
          rw [decoded] at form
          simpa [Holds, found] using form
        | some other =>
          rw [decoded] at form
          simpa [Holds, found] using form

/-- A kind decodes as what the type holds, if that is not empty. -/
theorem required_kind_ok {kind : String} :
    requiredKind trail fields = .ok kind ↔
      fields.lookup Field.type.name = some (.string kind) ∧ kind ≠ "" := by
  cases found : fields.lookup Field.type.name with
  | none => simp [requiredKind, found]
  | some value =>
    cases value with
    | string text =>
      by_cases empty : text = ""
      · subst empty
        simp [requiredKind, found]
      · simp only [requiredKind, found, empty, ↓reduceIte, Except.ok.injEq, Option.some.injEq,
          Value.string.injEq]
        exact ⟨fun same => ⟨same, same ▸ empty⟩, And.left⟩
    | null | bool | number | array | object => simp [requiredKind, found]

/-- The own fields decode as the node that carries what they hold, if its kind is there and its ends
fit. -/
theorem decode_fields_ok {node : Node} :
    decodeFields trail fields = .ok node ↔
      Carries fields node ∧ node.kind ≠ "" ∧ node.EndsFit := by
  constructor
  · intro decoded
    obtain ⟨kind, kindDecoded, decoded⟩ := bind_ok.mp decoded
    obtain ⟨value?, valueDecoded, decoded⟩ := bind_ok.mp decoded
    obtain ⟨id?, idDecoded, decoded⟩ := bind_ok.mp decoded
    obtain ⟨start?, startDecoded, decoded⟩ := bind_ok.mp decoded
    obtain ⟨stop?, stopDecoded, decoded⟩ := bind_ok.mp decoded
    obtain rfl : Node.mk kind value? id? start? stop? = node := Except.ok.inj decoded
    obtain ⟨type, nonempty⟩ := required_kind_ok.mp kindDecoded
    obtain ⟨start, startFits⟩ := optional_location_ok.mp startDecoded
    obtain ⟨stop, stopFits⟩ := optional_location_ok.mp stopDecoded
    exact ⟨⟨type, optional_string_ok.mp valueDecoded, optional_string_ok.mp idDecoded, start, stop⟩,
      nonempty, startFits, stopFits⟩
  · rintro ⟨carries, nonempty, startFits, stopFits⟩
    refine bind_ok.mpr ⟨node.kind, required_kind_ok.mpr ⟨carries.kind, nonempty⟩, ?_⟩
    refine bind_ok.mpr ⟨node.value?, optional_string_ok.mpr carries.value, ?_⟩
    refine bind_ok.mpr ⟨node.id?, optional_string_ok.mpr carries.id, ?_⟩
    refine bind_ok.mpr ⟨node.start?, optional_location_ok.mpr ⟨carries.start, startFits⟩, ?_⟩
    exact bind_ok.mpr ⟨node.stop?, optional_location_ok.mpr ⟨carries.stop, stopFits⟩, rfl⟩

/-- A field may hold a string exactly if there is a string, or none, that it holds. -/
theorem may_hold_text : MayHold fields field IsText ↔
    ∃ text? : Option String, Holds fields field (text?.map .string) := by
  constructor
  · rintro (missing | ⟨_, found, text, rfl⟩)
    · exact ⟨none, missing⟩
    · exact ⟨some text, found⟩
  · rintro ⟨_ | text, holds⟩
    · exact .inl holds
    · exact .inr ⟨_, holds, text, rfl⟩

/-- A field may hold a location exactly if there is one that fits, or none, that it holds. -/
theorem may_hold_location : MayHold fields field IsLocation ↔
    ∃ location? : Option Location, Holds fields field (location?.map encodeLocation) ∧
      ∀ location ∈ location?, location.Fits := by
  constructor
  · rintro (missing | ⟨_, found, line, column, lineSmall, columnSmall, rfl⟩)
    · exact ⟨none, missing, by simp⟩
    · refine ⟨some ⟨line, column⟩, found, fun location there => ?_⟩
      obtain rfl := Option.some.inj there
      exact ⟨lineSmall, columnSmall⟩
  · rintro ⟨_ | location, holds, fit⟩
    · exact .inl holds
    · obtain ⟨lineSmall, columnSmall⟩ := fit location rfl
      exact .inr ⟨_, holds, location.line, location.column, lineSmall, columnSmall, rfl⟩

/-- The own fields of an object have their form exactly if they decode. -/
theorem own_fields_iff :
    OwnFields fields ↔ ∃ node, Carries fields node ∧ node.kind ≠ "" ∧ node.EndsFit := by
  constructor
  · rintro ⟨⟨kind, nonempty, type⟩, value, id, start, stop⟩
    obtain ⟨value?, value⟩ := may_hold_text.mp value
    obtain ⟨id?, id⟩ := may_hold_text.mp id
    obtain ⟨start?, start, startFits⟩ := may_hold_location.mp start
    obtain ⟨stop?, stop, stopFits⟩ := may_hold_location.mp stop
    exact ⟨⟨kind, value?, id?, start?, stop?⟩, ⟨type, value, id, start, stop⟩, nonempty, startFits,
      stopFits⟩
  · rintro ⟨node, carries, nonempty, startFits, stopFits⟩
    exact ⟨⟨node.kind, nonempty, carries.kind⟩, may_hold_text.mpr ⟨_, carries.value⟩,
      may_hold_text.mpr ⟨_, carries.id⟩, may_hold_location.mpr ⟨_, carries.start, startFits⟩,
      may_hold_location.mpr ⟨_, carries.stop, stopFits⟩⟩

end TreeDelta.Exchange
