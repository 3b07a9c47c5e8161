import TreeDelta.Proofs.Document.Links

/-!
# Adding a child

Whether a child can be added is asked in three questions, one after the other: does the parent hang
below the child, has another child of the parent the key, and is there room for the index? The child
itself is left out of account where it is a child of the parent already. So a child may be moved
among its siblings, forwards or backwards, and may keep its key. When it has been added, the link
that led to it has gone, one link has come to its new parent, and no other link has changed.
-/

namespace TreeDelta.Document

open Editing

/-- The children of a node besides another one, in order. -/
def childrenBesides (document : Document) (parent child : Handle) : List Handle :=
  (document.children parent).filter (· ≠ child)

/-- Whether a node has a child with a key besides another one. -/
def Taken (document : Document) (parent child : Handle) (relation : String) : Prop :=
  ∃ other ∈ document.childrenBesides parent child, document.relation? other = some relation

/-- What can be said against adding a child, or that nothing can. -/
inductive AddingRefused (document : Document) (parent : Handle) (index : Nat)
    (relation? : Option String) (child : Handle) : Option Fault → Prop where
  | cycle (below : document.Hangs child parent) :
      AddingRefused document parent index relation? child (some (.violation .wouldCycle))
  | taken {relation : String} (apart : ¬ document.Hangs child parent)
      (given : relation? = some relation) (used : document.Taken parent child relation) :
      AddingRefused document parent index relation? child
        (some (.violation (.relationInUse relation)))
  | beyond (apart : ¬ document.Hangs child parent)
      (free : ∀ relation ∈ relation?, ¬ document.Taken parent child relation)
      (outside : (document.childrenBesides parent child).length < index) :
      AddingRefused document parent index relation? child
        (some (.indexOutOfRange index (document.childrenBesides parent child).length))
  | clear (apart : ¬ document.Hangs child parent)
      (free : ∀ relation ∈ relation?, ¬ document.Taken parent child relation)
      (inside : index ≤ (document.childrenBesides parent child).length) :
      AddingRefused document parent index relation? child none

/-- A child has been added to a document, at an index and under a key, and nothing else has
changed. -/
structure Added (before after : Document) (parent : Handle) (index : Nat) (relation : String)
    (child : Handle) : Prop where
  /-- The root is the same. -/
  root : after.root = before.root
  /-- No node has been made or lost. -/
  handles : after.handles.Perm before.handles
  /-- Every node carries what it has carried. -/
  nodes : ∀ handle, after.node? handle = before.node? handle
  /-- The child stands at the index among the other children of its parent. -/
  entered : after.children parent = (before.childrenBesides parent child).insertIdx index child
  /-- Its former parent has lost it, if that is another node. -/
  left : ∀ upper, upper ≠ parent → before.parent? child = some upper →
    after.children upper = before.childrenBesides upper child
  /-- Any other node has its children. -/
  others : ∀ upper, upper ≠ parent → before.parent? child ≠ some upper →
    after.children upper = before.children upper
  /-- The child has its new parent. -/
  parent : after.parent? child = some parent
  /-- The child has the key. -/
  key : after.relation? child = some relation
  /-- Any other node has its parent. -/
  parents : ∀ handle, handle ≠ child → after.parent? handle = before.parent? handle
  /-- Any other node has its key. -/
  keys : ∀ handle, handle ≠ child → after.relation? handle = before.relation? handle

variable {document : Document} {parent child : Handle} {index : Nat} {relation? : Option String}

/-- A key is taken if another node than the child is found by it. -/
theorem WellFormed.taken_iff (wellFormed : document.WellFormed) (parent child : Handle)
    (relation : String) :
    document.Taken parent child relation ↔
      ∃ other, document.childByRelation? parent relation = some other ∧ other ≠ child := by
  have unique := wellFormed.handlesDiffer
  constructor
  · rintro ⟨other, besides, keyed⟩
    obtain ⟨member, different⟩ := List.mem_filter.mp besides
    have linked := (link_iff unique).mpr ⟨(parent_iff unique _ _).mpr member, keyed⟩
    exact ⟨other, lookup_child (wellFormed.relations_nodup parent) linked,
      of_decide_eq_true different⟩
  · rintro ⟨other, found, different⟩
    obtain ⟨above, keyed⟩ := (link_iff unique).mp (link_of_lookup found)
    exact ⟨other, List.mem_filter.mpr ⟨(parent_iff unique _ _).mp above, decide_eq_true different⟩,
      keyed⟩

/-- The questions that are asked before a child is added come to one of the four answers. -/
theorem WellFormed.adding_refused (wellFormed : document.WellFormed)
    (parentHere : parent ∈ document.handles) (childHere : child ∈ document.handles) (index : Nat)
    (relation? : Option String) :
    AddingRefused document parent index relation? child
      (document.addFault? parent index relation? child) := by
  have parentHas := (has_iff _).mpr parentHere
  have childHas := (has_iff _).mpr childHere
  simp only [addFault?, parentHas, childHas, Bool.not_true, Bool.false_eq_true, if_false]
  split
  · next above => exact .cycle (hangs_of_ancestor wellFormed.handlesDiffer above)
  next notAbove =>
  have apart : ¬ document.Hangs child parent := fun below =>
    notAbove (ancestor_of_hangs wellFormed.handlesDiffer childHere below)
  have asked (relation : String) :
      (document.childByRelation? parent relation).any (· ≠ child) = true ↔
        document.Taken parent child relation := by
    rw [wellFormed.taken_iff]
    cases document.childByRelation? parent relation <;> simp
  split
  · next relation found =>
    obtain ⟨given, used⟩ := Option.filter_eq_some_iff.mp found
    exact .taken apart given ((asked relation).mp used)
  next unasked =>
  have free : ∀ relation ∈ relation?, ¬ document.Taken parent child relation :=
    fun relation given used =>
      Option.filter_eq_none_iff.mp unasked relation given ((asked relation).mpr used)
  split
  · next outside => exact .beyond apart free outside
  · next inside => exact .clear apart free (Nat.not_lt.mp inside)

/-- The index does not lie beyond the other links of the parent. -/
theorem add_inside (unique : document.handles.Nodup)
    (clear : document.addFault? parent index relation? child = none) :
    index ≤ ((document.links parent).filter fun link => link.2 ≠ child).length := by
  obtain ⟨-, -, -, -, -, inside⟩ := add_ready unique clear
  rwa [detach_links unique] at inside

/-- A link to another node than the child is not affected when the child is added. -/
theorem other_link_added (unique : document.handles.Nodup)
    (clear : document.addFault? parent index relation? child = none) (relation : String)
    {upper : Handle} {link : String × Handle} (different : link.2 ≠ child) :
    link ∈ ((document.detach child).attach parent index relation child).links upper ↔
      link ∈ document.links upper := by
  have kept (above : Handle) :
      link ∈ (document.links above).filter (fun link => link.2 ≠ child) ↔
        link ∈ document.links above := by
    simp [different]
  rw [links_added unique clear]
  split
  · next here =>
    rw [List.mem_insertIdx (add_inside unique clear), kept, here]
    refine or_iff_right ?_
    rintro rfl
    exact different rfl
  · exact kept upper

/-- When nothing speaks against it, a child is added.

Handles, children and parents of the document afterwards come from the rows after taking out and
putting in; each field is read off one of them. -/
theorem WellFormed.added (wellFormed : document.WellFormed)
    (clear : document.addFault? parent index relation? child = none) (relation : String) :
    Added document ((document.detach child).attach parent index relation child) parent index
      relation child := by
  have unique := wellFormed.handlesDiffer
  have handles := add_handles unique clear relation
  have afterUnique := handles.nodup_iff.mpr unique
  have children := add_children unique clear relation
  have parents := add_parent unique clear relation
  constructor
  case root => rw [attach_root, detach_root]
  case handles => exact handles
  case nodes => exact add_nodes unique clear relation
  case entered =>
    rw [children, if_pos rfl]
    rfl
  case left =>
    intro upper elsewhere _
    rw [children, if_neg elsewhere]
    rfl
  case others =>
    intro upper elsewhere notFormer
    exact add_children_else unique clear relation notFormer elsewhere
  case parent => rw [parents, if_pos rfl]
  case key =>
    refine (relation_iff afterUnique).mpr ⟨parent, ?_⟩
    rw [links_added unique clear, if_pos rfl, List.mem_insertIdx (add_inside unique clear)]
    exact .inl rfl
  case parents =>
    intro handle different
    rw [parents, if_neg different]
  case keys =>
    intro handle different
    refine relation_ext unique afterUnique fun key => exists_congr fun upper => ?_
    exact other_link_added unique clear relation different

/-- In every document that can be reached, adding a child is refused as a cycle if and only if the
child is the parent or stands above it. Otherwise it is refused for its key if and only if a key is
given that another child of the parent has. Otherwise it stops on the index if and only if there are
fewer other children. Otherwise it succeeds: the child stands at the index among the other children
of the parent, under the given key or a fresh one, its former parent has lost it, and everything
else is as it was.

Whether the addition is refused, and why, is decided before anything changes. `adding_refused` has
one case for each answer; in each of them the outcome is fixed and the conditions of the others
fail. -/
theorem child_added_or_refused (reached : Reachable document)
    (parentHere : parent ∈ document.handles) (childHere : child ∈ document.handles) (index : Nat)
    (relation? : Option String) :
    let outcome := perform (addChildAt parent index relation? child) document
    let others := document.childrenBesides parent child
    let free := ∀ relation ∈ relation?, ¬ document.Taken parent child relation
    (outcome.1 = .error (.violation .wouldCycle) ↔ document.Hangs child parent) ∧
    (∀ relation, outcome.1 = .error (.violation (.relationInUse relation)) ↔
      ¬ document.Hangs child parent ∧ relation? = some relation ∧
        document.Taken parent child relation) ∧
    (∀ position count, outcome.1 = .error (.indexOutOfRange position count) ↔
      ¬ document.Hangs child parent ∧ free ∧ others.length < index ∧ position = index ∧
        count = others.length) ∧
    (outcome.1 = .ok ⟨⟩ ↔ ¬ document.Hangs child parent ∧ free ∧ index ≤ others.length) ∧
    (outcome.1 = .ok ⟨⟩ → Added document outcome.2 parent index
      (relation?.getD (freshRelation (others.filterMap document.relation?))) child) := by
  intro outcome others free
  have wellFormed := reached.well_formed
  have unique := wellFormed.handlesDiffer
  have refused := wellFormed.adding_refused parentHere childHere index relation?
  have keys : (document.detach child).relations parent = others.filterMap document.relation? := by
    rw [relations_eq, detach_links unique]
    exact (keys_of_children unique parent (· ≠ child)).symm
  have performed : outcome = _ := perform_add_child_at parent index relation? child document
  have added (clear : document.addFault? parent index relation? child = none) :=
    wellFormed.added clear (relation?.getD (freshRelation (others.filterMap document.relation?)))
  simp only [keys] at performed
  generalize document.addFault? parent index relation? child = fault? at refused performed added
  cases refused with
  | cycle below =>
    have stopped : outcome.1 = .error (.violation .wouldCycle) := congrArg Prod.fst performed
    simp [stopped, below]
  | @taken key apart given used =>
    have stopped : outcome.1 = .error (.violation (.relationInUse key)) :=
      congrArg Prod.fst performed
    have notFree : ¬ free := fun free => free key given used
    simpa [stopped, apart, notFree, given] using used
  | beyond apart untaken outside =>
    have stopped : outcome.1 = .error (.indexOutOfRange index others.length) :=
      congrArg Prod.fst performed
    have holds : free := untaken
    replace outside : others.length < index := outside
    have noRoom : ¬ index ≤ others.length := Nat.not_le.mpr outside
    simpa [stopped, apart, holds, outside, noRoom, eq_comm] using untaken
  | clear apart untaken inside =>
    have done : outcome.1 = .ok ⟨⟩ := congrArg Prod.fst performed
    have left := congrArg Prod.snd performed
    have holds : free := untaken
    replace inside : index ≤ others.length := inside
    have notBeyond : ¬ others.length < index := Nat.not_lt.mpr inside
    rw [left]
    simpa [done, apart, holds, inside, notBeyond] using ⟨untaken, added rfl⟩

/-- In a list of three items the first one is moved behind the other two. It keeps its key, which
none of them has. -/
theorem first_item_moved_last :
    ∃ document : Document, document.Reachable ∧ 0 ∈ document.handles ∧ 1 ∈ document.handles ∧
      document.children 0 = [1, 2, 3] ∧ document.relation? 1 = some "0" ∧
      (perform (addChildAt 0 2 (some "0") 1) document).1 = .ok ⟨⟩ ∧
      (perform (addChildAt 0 2 (some "0") 1) document).2.children 0 = [2, 3, 1] ∧
      (perform (addChildAt 0 2 (some "0") 1) document).2.relation? 1 = some "0" := by
  let operations : List Operation := List.replicate 3 (.appendNew 0 none (Node.bare "item"))
  let document := operations.foldl left (ofNode (Node.bare "list"))
  have reached : Reachable document :=
    List.foldlRecOn operations left (.made _) fun _ before operation _ => before.edited operation
  have listHere : 0 ∈ document.handles := by decide +kernel
  have itemHere : 1 ∈ document.handles := by decide +kernel
  have succeeds : (perform (addChildAt 0 2 (some "0") 1) document).1 = .ok ⟨⟩ := by decide +kernel
  have others : document.childrenBesides 0 1 = [2, 3] := by decide +kernel
  have added := (child_added_or_refused reached listHere itemHere 2 (some "0")).2.2.2.2 succeeds
  refine ⟨document, reached, listHere, itemHere, by decide +kernel, by decide +kernel, succeeds, ?_,
    added.key⟩
  rw [added.entered, others]
  rfl

end TreeDelta.Document
