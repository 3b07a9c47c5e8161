import TreeDelta.Proofs.Tree.Preorder
import TreeDelta.Span

/-!
# Where a node begins

A written beginning hides all those below it. What is left of the beginnings below a node are those
of the nodes that have no other node with a beginning between themselves and the node, itself
included; they are on different branches, and the beginning of the node is the earliest of them.
-/

namespace TreeDelta

namespace Location

/-- Locations are ordered by line, then by column. -/
theorem not_after_iff (first second : Location) :
    first.notAfter second = true ↔
      first.line < second.line ∨ first.line = second.line ∧ first.column ≤ second.column := by
  rw [notAfter, compare, Ordering.isLE_then_iff_and, Nat.isLE_compare, Nat.isLE_compare,
    Nat.compare_eq_lt]
  omega

/-- A location does not stand after itself. -/
theorem not_after_refl (location : Location) : location.notAfter location = true := by
  simp [not_after_iff]

/-- Two locations neither of which stands after the other are the same. -/
theorem not_after_antisymm {first second : Location} (forth : first.notAfter second = true)
    (back : second.notAfter first = true) : first = second := by
  rw [not_after_iff] at *
  obtain ⟨line, column⟩ := first
  obtain ⟨otherLine, otherColumn⟩ := second
  rw [Location.mk.injEq]
  dsimp only at forth back
  omega

/-- What does not stand after a location does not stand after later ones. -/
theorem not_after_trans {first second third : Location} (early : first.notAfter second = true)
    (late : second.notAfter third = true) : first.notAfter third = true := by
  rw [not_after_iff] at *
  omega

/-- The earlier of two locations is one of them and stands after neither. -/
theorem earlier_least (first second : Location) :
    (earlier first second = first ∨ earlier first second = second) ∧
      (earlier first second).notAfter first = true ∧
      (earlier first second).notAfter second = true := by
  by_cases order : first.notAfter second = true
  · simp [earlier, order, not_after_refl]
  · have other : second.notAfter first = true := by
      rw [not_after_iff] at *
      omega
    simp [earlier, order, other, not_after_refl]

/-- Taking the earlier one again and again ends with one that stands after none of those that have
been compared. -/
theorem fold_least (first : Location) (rest : List Location) :
    rest.foldl earlier first ∈ first :: rest ∧
      ∀ other ∈ first :: rest, (rest.foldl earlier first).notAfter other = true := by
  induction rest generalizing first with
  | nil => simp [not_after_refl]
  | cons second rest inductionHypothesis =>
    obtain ⟨oneOf, notAfterFirst, notAfterSecond⟩ := earlier_least first second
    obtain ⟨member, least⟩ := inductionHypothesis (earlier first second)
    have below := least _ List.mem_cons_self
    refine ⟨?_, fun other listed => ?_⟩
    · rw [List.foldl_cons]
      rcases List.mem_cons.mp member with same | later
      · rw [same]
        rcases oneOf with isFirst | isSecond
        · simp [isFirst]
        · simp [isSecond]
      · simp [later]
    · rcases List.mem_cons.mp listed with rfl | listed
      · exact not_after_trans below notAfterFirst
      · rcases List.mem_cons.mp listed with rfl | listed
        · exact not_after_trans below notAfterSecond
        · exact least other (List.mem_cons_of_mem _ listed)

/-- The earliest of a list of locations is one of them and stands after none of them. -/
theorem earliest_least {locations : List Location} {location : Location}
    (found : earliest? locations = some location) :
    location ∈ locations ∧ ∀ other ∈ locations, location.notAfter other = true := by
  cases locations with
  | nil => cases found
  | cons first rest =>
    obtain rfl := Option.some.inj found
    exact fold_least first rest

/-- Only an empty list of locations has no earliest one. -/
theorem earliest_none_iff (locations : List Location) :
    earliest? locations = none ↔ locations = [] := by
  cases locations <;> simp [earliest?]

end Location

namespace Span

/-- The place belongs to another one or stands below it, it has a written beginning, and no place
between the two has one, nor has the other place itself. -/
structure Leading (place lower : Place Node) : Prop where
  listed : lower ∈ place.preorder
  written : lower.label.start?.isSome
  alone : ∀ upper ∈ place.preorder, upper.IsAbove lower → upper.label.start? = none

/-- Where the children of a node begin. -/
theorem starts_eq (branches : List (String × SyntaxTree)) :
    starts branches = (branches.map Prod.snd).filterMap start? := by
  induction branches with
  | nil => rfl
  | cons branch rest inductionHypothesis =>
    rw [starts, List.map_cons, List.filterMap_cons, inductionHypothesis]
    cases start? branch.2 <;> rfl

/-- A node without a written beginning begins where the earliest of its children begins. -/
theorem start_of_children {tree : SyntaxTree} (unwritten : tree.label.start? = none) :
    start? tree = Location.earliest? (tree.children.filterMap start?) := by
  obtain ⟨top, branches⟩ := tree
  rw [Tree.label_node] at unwritten
  rw [start?, unwritten, starts_eq]
  rfl

/-- A written beginning is where a node begins. -/
theorem start_of_written {tree : SyntaxTree} {location : Location}
    (written : tree.label.start? = some location) : start? tree = some location := by
  obtain ⟨top, branches⟩ := tree
  rw [Tree.label_node] at written
  rw [start?, written]

/-- Below a node with a written beginning only the node itself leads. -/
theorem leading_of_written {place : Place Node} (written : place.label.start?.isSome)
    (lower : Place Node) : Leading place lower ↔ lower = place := by
  constructor
  · intro leading
    by_contra different
    have here : place ∈ place.preorder := (Place.listed_iff place place).mpr (.inl rfl)
    have upward : place.IsAbove lower := ⟨Place.path_of_listed leading.listed, fun same =>
      different (Place.Reaches.eq_of_path ((Place.mem_preorder_iff _ _).mp leading.listed) .here
        same.symm)⟩
    rw [leading.alone place here upward] at written
    cases written
  · rintro rfl
    refine ⟨(Place.listed_iff _ _).mpr (.inl rfl), written, fun upper listed upward => ?_⟩
    have downward := Place.path_of_listed listed
    exact absurd (upward.1.eq_of_length_le downward.length_le) upward.2

/-- Below a node without a written beginning those lead that lead below its children. -/
theorem leading_of_children {place : Place Node} (unwritten : place.label.start? = none)
    (lower : Place Node) :
    Leading place lower ↔ ∃ index child, place.tree.children[index]? = some child ∧
      Leading (place.down index child) lower := by
  constructor
  · rintro ⟨listed, written, alone⟩
    rcases (Place.listed_iff place lower).mp listed with rfl | ⟨index, child, found, inside⟩
    · rw [unwritten] at written
      cases written
    · exact ⟨index, child, found, inside, written, fun upper upperInside =>
        alone upper ((Place.listed_iff place upper).mpr (.inr ⟨index, child, found, upperInside⟩))⟩
  · rintro ⟨index, child, found, inside, written, alone⟩
    refine ⟨(Place.listed_iff place lower).mpr (.inr ⟨index, child, found, inside⟩), written, ?_⟩
    intro upper upperListed upward
    rcases (Place.listed_iff place upper).mp upperListed with
      rfl | ⟨other, sibling, otherFound, below⟩
    · exact unwritten
    · -- A node below another child does not stand above the node.
      have through := Place.path_of_listed inside
      have upperThrough := Place.path_of_listed below
      rw [Place.down, Place.path_step] at through upperThrough
      obtain rfl : other = index := by
        by_contra different
        exact Place.diverging _ _ _ _ _ different upperThrough through upward.1
      obtain rfl := Option.some.inj (otherFound.symm.trans found)
      exact alone upper below upward

/-- A node begins nowhere exactly if no node below it, itself included, has a written beginning. -/
theorem start_none_iff (place : Place Node) :
    start? place.tree = none ↔ ∀ lower ∈ place.preorder, lower.label.start? = none := by
  induction place using Place.induct_down with
  | up place inductionHypothesis =>
    cases written : place.label.start? with
    | some location =>
      refine iff_of_false (by simp [start_of_written written]) fun unwritten => ?_
      rw [unwritten place ((Place.listed_iff place place).mpr (.inl rfl))] at written
      cases written
    | none =>
      rw [start_of_children written, Location.earliest_none_iff, List.filterMap_eq_nil_iff]
      constructor
      · intro nowhere lower listed
        rcases (Place.listed_iff place lower).mp listed with rfl | ⟨index, child, found, inside⟩
        · exact written
        · exact (inductionHypothesis index child found).mp
            (nowhere child (List.mem_of_getElem? found)) lower inside
      · intro unwritten child member
        obtain ⟨index, found⟩ := List.mem_iff_getElem?.mp member
        exact (inductionHypothesis index child found).mpr fun lower inside =>
          unwritten lower ((Place.listed_iff place lower).mpr (.inr ⟨index, child, found, inside⟩))

/-- A node begins at a written beginning that leads below it, and after none of the others.

The induction goes down from the place. A written beginning hides all below it and leads only to
itself. Otherwise the earliest among the children is taken, and every beginning that leads below the
place leads below one of these, which it does not precede. -/
theorem start_least (place : Place Node) {location : Location}
    (begins : start? place.tree = some location) :
    (∃ lower, Leading place lower ∧ lower.label.start? = some location) ∧
      ∀ lower other, Leading place lower → lower.label.start? = some other →
        location.notAfter other = true := by
  induction place using Place.induct_down generalizing location with
  | up place inductionHypothesis =>
    cases written : place.label.start? with
    | some own =>
      have given : place.label.start?.isSome := by simp [written]
      have leads := leading_of_written given
      obtain rfl := Option.some.inj ((start_of_written written).symm.trans begins)
      refine ⟨⟨place, (leads place).mpr rfl, written⟩, fun lower other leading carried => ?_⟩
      rw [(leads lower).mp leading, written] at carried
      exact Option.some.inj carried ▸ Location.not_after_refl own
    | none =>
      rw [start_of_children written] at begins
      obtain ⟨member, least⟩ := Location.earliest_least begins
      obtain ⟨first, firstMember, firstBegins⟩ := List.mem_filterMap.mp member
      obtain ⟨index, found⟩ := List.mem_iff_getElem?.mp firstMember
      obtain ⟨⟨lower, leading, carried⟩, -⟩ := inductionHypothesis index first found firstBegins
      refine ⟨⟨lower, (leading_of_children written lower).mpr ⟨index, first, found, leading⟩,
        carried⟩, fun lower other leading carried => ?_⟩
      obtain ⟨position, child, childFound, below⟩ := (leading_of_children written lower).mp leading
      -- The child that the other one leads below has a beginning of its own, which is compared.
      cases inner : start? child with
      | none =>
        have unwritten := (start_none_iff (place.down position child)).mp inner lower below.listed
        rw [unwritten] at carried
        cases carried
      | some middle =>
        have compared := List.mem_filterMap.mpr ⟨child, List.mem_of_getElem? childFound, inner⟩
        have notAfter := (inductionHypothesis position child childFound inner).2 lower other below
          carried
        exact Location.not_after_trans (least middle compared) notAfter

/-- A node begins at the earliest of the written beginnings that lead below it, if there are any. -/
theorem start_iff (place : Place Node) (location : Location) :
    start? place.tree = some location ↔
      (∃ lower, Leading place lower ∧ lower.label.start? = some location) ∧
        ∀ lower other, Leading place lower → lower.label.start? = some other →
          location.notAfter other = true := by
  refine ⟨start_least place, fun ⟨⟨lower, leading, carried⟩, least⟩ => ?_⟩
  cases begins : start? place.tree with
  | none =>
    rw [(start_none_iff place).mp begins lower leading.listed] at carried
    cases carried
  | some found =>
    obtain ⟨⟨other, otherLeading, otherCarried⟩, notAfter⟩ := start_least place begins
    exact congrArg some (Location.not_after_antisymm (notAfter lower location leading carried)
      (least other found otherLeading otherCarried))

end Span

end TreeDelta
