import TreeDelta.Proofs.Span.Starts
import TreeDelta.Proofs.Tree.Around

/-!
# Where a node ends

The end of a node is looked for on the way up. At each place there are two things to ask: whether
the end is written there, and whether a later sibling has a beginning. The first place that has an
answer decides.

Where no end is written on the way up, this is a scan of what comes behind the node in pre-order.
The later siblings on the way up are the trees behind the node, nearest first, and a tree has a
beginning exactly if a node in it has one; the first such node is then the top of the tree.
-/

namespace TreeDelta.Span

/-- In a list of places there is a node with a beginning, and the first one has it at the
location. -/
def FirstStart (places : List (Place Node)) (location : Location) : Prop :=
  ∃ passed sibling further, places = passed ++ sibling :: further ∧
    (∀ other ∈ passed, start? other.tree = none) ∧ start? sibling.tree = some location

/-- The node at a place has the location as its written end, or it has none and the location is
where the first of its later siblings with a beginning begins. -/
def Decides (place : Place Node) (location : Location) : Prop :=
  place.label.stop? = some location ∨
    place.label.stop? = none ∧ FirstStart place.laterSiblings location

/-- The end that is decided at a place, without a look at the places above. -/
def decided? (place : Place Node) : Option Location :=
  place.label.stop?.or (place.laterSiblings.findSome? fun sibling => start? sibling.tree)

/-- The first node with a beginning is what a scan for beginnings stops at. -/
theorem first_start_iff (places : List (Place Node)) (location : Location) :
    FirstStart places location ↔
      (places.findSome? fun sibling => start? sibling.tree) = some location := by
  rw [List.findSome?_eq_some_iff]
  constructor
  · rintro ⟨passed, sibling, further, split, nowhere, begins⟩
    exact ⟨passed, sibling, further, split, begins, nowhere⟩
  · rintro ⟨passed, sibling, further, split, begins, nowhere⟩
    exact ⟨passed, sibling, further, split, nowhere, begins⟩

/-- A place decides what its written end and its later siblings give. -/
theorem decides_iff (place : Place Node) (location : Location) :
    Decides place location ↔ decided? place = some location := by
  rw [Decides, decided?, first_start_iff]
  cases place.label.stop? <;> simp

/-- A place has no answer if it decides nothing. -/
theorem decides_nothing_iff (place : Place Node) :
    decided? place = none ↔ ∀ location, ¬Decides place location := by
  simp only [decides_iff, Option.eq_none_iff_forall_ne_some, ne_eq]

/-- Later siblings are asked for their beginnings in order. -/
theorem next_start_eq (tree : SyntaxTree) (step : Step Node) (further : List (Step Node)) :
    nextStart? step = (Place.mk tree (step :: further)).laterSiblings.findSome? fun sibling =>
      start? sibling.tree := by
  have trees : step.tree.children =
      (Place.mk step.tree further).children.map Place.tree := by
    refine List.ext_getElem? fun index => ?_
    cases found : step.tree.children[index]? <;> simp [Place.children, Place.down, found]
  rw [nextStart?, Place.later_siblings_below, trees, ← List.map_drop, List.findSome?_map]
  rfl

/-- The end of a node is decided by the first place on the way up that decides one. -/
theorem stop_eq (place : Place Node) : stop? place = place.ancestors.findSome? decided? := by
  obtain ⟨tree, above⟩ := place
  induction above generalizing tree with
  | nil =>
    cases written : tree.label.stop? <;>
      simp [stop?, stopBelow?, Place.ancestors, Place.ancestorsFrom, decided?, Place.label, written]
  | cons step further inductionHypothesis =>
    have upward : stopBelow? step.tree further =
        (Place.mk step.tree further).ancestors.findSome? decided? := inductionHypothesis step.tree
    have ancestors : (Place.mk tree (step :: further)).ancestors =
        ⟨tree, step :: further⟩ :: (Place.mk step.tree further).ancestors := rfl
    rw [ancestors, List.findSome?_cons, ← upward, decided?, ← next_start_eq]
    cases written : tree.label.stop? with
    | some location => simp [stop?, stopBelow?, Place.label, written]
    | none =>
      cases next : nextStart? step <;> simp [stop?, stopBelow?, Place.label, written, next]

/-- The first node with a beginning at and below a place is the one at the place. -/
theorem scan_below (place : Place Node) :
    (place.preorder.findSome? fun lower => start? lower.tree) = start? place.tree := by
  rw [Place.preorder_children, List.findSome?_cons]
  cases begins : start? place.tree with
  | some location => rfl
  | none =>
    rw [List.findSome?_eq_none_iff]
    intro lower inside
    have listed : lower ∈ place.preorder := by
      rw [Place.preorder_children]
      exact List.mem_cons_of_mem _ inside
    refine (start_none_iff lower).mpr fun deeper below => ?_
    have reached := ((Place.mem_preorder_iff _ _).mp listed).trans
      ((Place.mem_preorder_iff _ _).mp below)
    exact (start_none_iff place).mp begins deeper ((Place.mem_preorder_iff _ _).mpr reached)

/-- To scan a row of places with all that is below them is to scan the places alone. -/
theorem scan_row (places : List (Place Node)) :
    ((places.flatMap Place.preorder).findSome? fun lower => start? lower.tree) =
      places.findSome? fun sibling => start? sibling.tree := by
  induction places with
  | nil => rfl
  | cons place rest inductionHypothesis =>
    rw [List.flatMap_cons, List.findSome?_append, scan_below, inductionHypothesis,
      List.findSome?_cons]
    cases start? place.tree <;> rfl

/-- Without a written end on the way up, a node ends where the first node behind it begins. -/
theorem stop_behind (place : Place Node)
    (unwritten : ∀ upper ∈ place.ancestors, upper.label.stop? = none) :
    stop? place = place.behind.findSome? fun lower => start? lower.tree := by
  obtain ⟨tree, above⟩ := place
  induction above generalizing tree with
  | nil =>
    have here : tree.label.stop? = none := unwritten ⟨tree, []⟩ List.mem_cons_self
    simp [stop?, stopBelow?, here, Place.behind, Place.behindFrom]
  | cons step further inductionHypothesis =>
    have here : tree.label.stop? = none := unwritten ⟨tree, step :: further⟩ List.mem_cons_self
    have upward : stopBelow? step.tree further =
        (Place.mk step.tree further).behind.findSome? fun lower => start? lower.tree :=
      inductionHypothesis step.tree fun upper member =>
        unwritten upper (List.mem_cons_of_mem _ member)
    rw [Place.behind_below, List.findSome?_append, scan_row, ← next_start_eq, ← upward]
    simp [stop?, stopBelow?, here]

/-- A node has a beginning exactly if one is written below it, itself included, and it is then the
earliest of those that are not hidden by one further up. The end is what the first place decides
that decides anything, on the way up from the node; there is none if no place does. Without a
written end on the way up it is where the first node with a beginning begins that comes behind the
node and all that is below it in the pre-order of the whole tree.

The end is searched for on the way up, and searching is finding the first place that decides. Where
nothing is written on the way, a place decides by a sibling that comes behind it and begins
somewhere, and going up passes these in the order of what stands behind the node in pre-order. -/
theorem bounds_of_place {whole : SyntaxTree} {place : Place Node}
    (listed : place ∈ (Place.top whole).preorder) :
    ((start? place.tree).isSome ↔ ∃ lower ∈ place.preorder, lower.label.start?.isSome) ∧
      (∀ location, start? place.tree = some location ↔
        (∃ lower, Leading place lower ∧ lower.label.start? = some location) ∧
          ∀ lower other, Leading place lower → lower.label.start? = some other →
            location.notAfter other = true) ∧
      (∀ location, stop? place = some location ↔
        ∃ passed decider further, place.ancestors = passed ++ decider :: further ∧
          (∀ upper ∈ passed, ∀ other, ¬Decides upper other) ∧ Decides decider location) ∧
      (stop? place = none ↔ ∀ upper ∈ place.ancestors, ∀ location, ¬Decides upper location) ∧
      ∃ before behind, (Place.top whole).preorder = before ++ place.preorder ++ behind ∧
        ((∀ upper ∈ place.ancestors, upper.label.stop? = none) →
          ∀ location, stop? place = some location ↔ FirstStart behind location) := by
  have decided (location : Location) : stop? place = some location ↔
      ∃ passed decider further, place.ancestors = passed ++ decider :: further ∧
        (∀ upper ∈ passed, ∀ other, ¬Decides upper other) ∧ Decides decider location := by
    rw [stop_eq, List.findSome?_eq_some_iff]
    simp only [decides_iff, decides_nothing_iff]
    exact exists_congr fun _ => exists_congr fun _ => exists_congr fun _ =>
      and_congr_right fun _ => and_comm
  have absent : stop? place = none ↔
      ∀ upper ∈ place.ancestors, ∀ location, ¬Decides upper location := by
    simp only [stop_eq, List.findSome?_eq_none_iff, decides_nothing_iff]
  have begins : (start? place.tree).isSome ↔
      ∃ lower ∈ place.preorder, lower.label.start?.isSome := by
    simp only [Option.isSome_iff_ne_none, ne_eq, start_none_iff, not_forall, exists_prop]
  obtain ⟨before, around⟩ := Place.preorder_around listed
  refine ⟨begins, start_iff place, decided, absent, before, place.behind, around,
    fun unwritten location => ?_⟩
  rw [stop_behind place unwritten, first_start_iff]

/-- A word in a phrase begins nowhere and ends where the literal behind the phrase begins, since
neither the word nor a sibling of it says more. -/
theorem word_ends_at_literal :
    let word : SyntaxTree := .leaf (Node.bare "word")
    let phrase : SyntaxTree := .node (Node.bare "phrase") [("0", word)]
    let literal : SyntaxTree := .leaf { Node.bare "literal" with start? := some ⟨2, 0⟩ }
    let whole : SyntaxTree := .node (Node.bare "block") [("0", phrase), ("1", literal)]
    let place := ((Place.top whole).down 0 phrase).down 0 word
    place ∈ (Place.top whole).preorder ∧ start? place.tree = none ∧
      stop? place = some ⟨2, 0⟩ := by
  intro word phrase literal whole place
  have listed : place ∈ (Place.top whole).preorder := .tail _ (.tail _ (.head _))
  obtain ⟨begins, -, decided, -⟩ := bounds_of_place listed
  refine ⟨listed, ?_, (decided ⟨2, 0⟩).mpr ?_⟩
  · have unwritten : ¬ ∃ lower ∈ place.preorder, lower.label.start?.isSome := by decide
    rwa [← begins, Option.not_isSome_iff_eq_none] at unwritten
  · refine ⟨[place], (Place.top whole).down 0 phrase, [Place.top whole], rfl, ?_, .inr ⟨rfl, ?_⟩⟩
    · exact List.forall_mem_singleton.mpr ((decides_nothing_iff place).mp rfl)
    · exact ⟨[], (Place.top whole).down 1 literal, [], rfl, by simp, rfl⟩

end TreeDelta.Span
