import TreeDelta.Edit
import TreeDelta.Proofs.Json.ToldApart

/-!
# Edits in the exchange text

Whoever is handed the text of an edit can tell from it which edit it is. An address shows what it is
of by its first field, and what is left out of it shows as well: a value that is absent has no
field, so it is not an empty one, and the top of a tree is written as null, so it is no address by
id. Edits show their kind and the addresses of their slots, and nothing else of an edit counts when
edits are compared.
-/

namespace TreeDelta

namespace Address

/-- The only numbers in the value of an address are indices. -/
theorem to_value_counting (address : Address) : Json.Counting address.toValue := by
  induction address with
  | top => exact .null
  | named id =>
    refine .object fun field member => ?_
    simp only [List.mem_cons, List.not_mem_nil, or_false] at member
    rcases member with rfl | rfl
    · exact .string "id"
    · exact .string id
  | child index kind value? parent inductionHypothesis =>
    refine .object fun field member => ?_
    simp only [List.cons_append, List.nil_append, List.mem_cons] at member
    rcases member with rfl | rfl | rfl | rfl | carried
    · exact .string "child"
    · exact inductionHypothesis
    · exact .natural index
    · exact .string kind
    · cases value? with
      | none => cases carried
      | some value =>
        obtain rfl := List.mem_singleton.mp carried
        exact .string value

/-- Different addresses have different values. -/
theorem to_value_injective {first second : Address} (same : first.toValue = second.toValue) :
    first = second := by
  induction first generalizing second with
  | top => cases second with
    | top => rfl
    | _ => cases same
  | named id => cases second with
    | named other =>
      simp only [toValue, Json.Value.object.injEq, List.cons.injEq, Prod.mk.injEq,
        Json.Value.string.injEq, true_and, and_true] at same
      rw [same]
    | _ => simp [toValue] at same
  | child index kind value? parent inductionHypothesis => cases second with
    | child otherIndex otherKind otherValue? otherParent =>
      simp only [toValue, Json.Value.object.injEq, List.cons_append, List.nil_append,
        List.cons.injEq, Prod.mk.injEq, Json.Value.string.injEq, true_and] at same
      obtain ⟨parents, indices, rfl, values⟩ := same
      obtain rfl := inductionHypothesis parents
      obtain rfl : index = otherIndex := by
        simp only [Json.Value.natural, Json.Value.number.injEq, Json.Number.integer.injEq]
          at indices
        exact Int.ofNat_inj.mp indices
      cases value? <;> cases otherValue? <;> simp_all
    | _ => simp [toValue] at same

end Address

namespace Edit

/-- The only numbers in the value of an edit are indices. -/
theorem to_value_counting (edit : Edit) : Json.Counting edit.toValue := by
  cases edit with
  | insertion slot =>
    refine .object fun field member => ?_
    simp only [List.mem_cons, List.not_mem_nil, or_false] at member
    rcases member with rfl | rfl
    · exact .string "insertion"
    · exact slot.address.to_value_counting
  | deletion slot =>
    refine .object fun field member => ?_
    simp only [List.mem_cons, List.not_mem_nil, or_false] at member
    rcases member with rfl | rfl
    · exact .string "deletion"
    · exact slot.address.to_value_counting
  | move old new =>
    refine .object fun field member => ?_
    simp only [List.mem_cons, List.not_mem_nil, or_false] at member
    rcases member with rfl | rfl | rfl
    · exact .string "move"
    · exact old.address.to_value_counting
    · exact new.address.to_value_counting

/-- Edits are the same exactly if their values are. -/
theorem same_value_iff (first second : Edit) :
    (first == second) = true ↔ first.toValue = second.toValue := by
  have addresses : ∀ one other : Slot,
      (one == other) = true ↔ one.address.toValue = other.address.toValue := fun one other =>
    (beq_iff_eq (a := one.address)).trans ⟨congrArg _, Address.to_value_injective⟩
  change first.same second = true ↔ _
  cases first <;> cases second <;> simp [same, toValue, addresses]

/-- The text of an edit tells which edit it is, and the text of an address which address it is: two
edits are written alike exactly if they are of one kind and have the same slots, and two addresses,
whatever they are nested in, exactly if they are the same. -/
theorem texts_tell_apart :
    (∀ first second : Edit,
      Json.write false first.toValue = Json.write false second.toValue ↔
        (first == second) = true) ∧
    ∀ first second : Address,
      Json.write false first.toValue = Json.write false second.toValue ↔ first = second := by
  refine ⟨fun first second => ⟨fun texts => ?_, fun same => ?_⟩,
    fun first second => ⟨fun texts => ?_, fun same => same ▸ rfl⟩⟩
  · exact (same_value_iff first second).mpr
      (Json.write_injective first.to_value_counting second.to_value_counting texts)
  · rw [(same_value_iff first second).mp same]
  · exact Address.to_value_injective
      (Json.write_injective first.to_value_counting second.to_value_counting texts)

end Edit

end TreeDelta
