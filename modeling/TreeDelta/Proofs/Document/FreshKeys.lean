import TreeDelta.Proofs.Document.Undone

/-!
# Fresh keys

A child that is added without a key gets a numeral. The search for it begins with the number of the
other children of the parent and goes up until it comes to a numeral that none of them has as its
key. The keys of the other children may be anything: numerals below or above their number, numerals
with zeros in front, which are no numerals of numbers, or other words. As there are no more keys
than children, each key can stop the search once only, and it ends before the number has doubled.
-/

namespace TreeDelta.Document

open Editing

/-- The numbers, not below the number of a parent's children besides one, whose numerals none of
these has as its key. -/
def freeNumbers (document : Document) (parent child : Handle) : Set Nat :=
  {number | (document.childrenBesides parent child).length ≤ number ∧
    ¬ document.Taken parent child (toString number)}

/-- A child has come to a parent under the numeral of the least free number, which is at most twice
the number of the other children. These are as they were. -/
structure KeyedAfresh (before after : Document) (parent child : Handle) : Prop where
  /-- The child has its new parent. -/
  placed : after.parent? child = some parent
  /-- The parent has its other children. -/
  others : after.childrenBesides parent child = before.childrenBesides parent child
  /-- The other children have their keys. -/
  keys : ∀ other ∈ before.childrenBesides parent child,
    after.relation? other = before.relation? other
  /-- The child has the numeral of the least free number. -/
  numeral : ∃ number, after.relation? child = some (toString number) ∧
    IsLeast (before.freeNumbers parent child) number ∧
    number ≤ 2 * (before.childrenBesides parent child).length

variable {document : Document}

/-- The keys that a fresh key has to differ from are those of the other children, one for each. -/
theorem fresh_key_free (unique : document.handles.Nodup) (parent child : Handle) :
    ∃ number, freshRelation ((document.detach child).relations parent) = toString number ∧
      IsLeast (document.freeNumbers parent child) number ∧
      number ≤ 2 * (document.childrenBesides parent child).length := by
  have keys : (document.detach child).relations parent =
      (document.childrenBesides parent child).filterMap document.relation? := by
    rw [relations_eq, detach_links unique]
    exact (keys_of_children unique parent (· ≠ child)).symm
  have taken (number : Nat) : toString number ∈ (document.detach child).relations parent ↔
      document.Taken parent child (toString number) := by
    rw [keys, List.mem_filterMap]
    rfl
  have count : ((document.detach child).relations parent).length =
      (document.childrenBesides parent child).length := by
    rw [relations_eq, detach_links unique, children_besides_eq, List.length_map, List.length_map]
  obtain ⟨number, fresh, least, bound⟩ :=
    fresh_numeral ((document.detach child).relations parent)
  simp only [taken, count] at least bound
  exact ⟨number, fresh, least, bound⟩

/-- When a child has been added without a key, it has the numeral of the least free number. -/
theorem WellFormed.keyed_afresh (wellFormed : document.WellFormed) {parent child : Handle}
    {index : Nat}
    (succeeds : (perform (addChildAt parent index none child) document).1 = .ok ⟨⟩) :
    KeyedAfresh document (perform (addChildAt parent index none child) document).2 parent
      child := by
  have unique := wellFormed.handlesDiffer
  rw [perform_add_child_at] at succeeds ⊢
  cases clear : document.addFault? parent index none child with
  | some fault => simp [clear] at succeeds
  | none =>
    obtain ⟨number, fresh, least, bound⟩ := fresh_key_free unique parent child
    have added := wellFormed.added clear (toString number)
    simp only [Option.getD_none, fresh]
    refine ⟨added.parent, ?_, fun other besides => ?_, number, added.key, least, bound⟩
    · -- Nothing but the child itself has come among the children of its parent.
      rw [children_besides_eq, children_besides_eq, links_added unique clear, if_pos rfl,
        struck_inserted, List.filter_filter]
      simp
    · exact added.keys other (of_decide_eq_true (List.mem_filter.mp besides).2)

/-- What has been said of a document holds of one before it whose nodes it has not touched. -/
theorem KeyedAfresh.of_untouched {before made after : Document} {parent child : Handle}
    (keyed : KeyedAfresh made after parent child) (unique : before.handles.Nodup)
    (untouched : Untouched before made) (present : parent ∈ before.handles) :
    KeyedAfresh before after parent child := by
  have others : made.childrenBesides parent child = before.childrenBesides parent child := by
    rw [childrenBesides, untouched.children parent present]
    rfl
  have keys (other : Handle) (besides : other ∈ before.childrenBesides parent child) :
      made.relation? other = before.relation? other := by
    obtain ⟨_, _, _, -, below⟩ := child_place unique (List.mem_of_mem_filter besides)
    exact untouched.relations other (handle_of_place below)
  have taken (relation : String) :
      made.Taken parent child relation ↔ before.Taken parent child relation := by
    rw [Taken, Taken, others]
    exact exists_congr fun other => and_congr_right fun besides => by rw [keys other besides]
  obtain ⟨number, key, least, bound⟩ := keyed.numeral
  rw [freeNumbers] at least
  simp only [others, taken] at least bound
  refine ⟨keyed.placed, keyed.others.trans others, fun other besides => ?_, number, key, least,
    bound⟩
  exact (keyed.keys other (others.symm ▸ besides)).trans (keys other besides)

/-- A node that is made and added without a key has the numeral of the least free number as well:
the other children of its parent are all children that the parent has had. -/
theorem WellFormed.appended_afresh (wellFormed : document.WellFormed) {parent child : Handle}
    {node : Node} (succeeds : (perform (appendNew parent none node) document).1 = .ok child) :
    KeyedAfresh document (perform (appendNew parent none node) document).2 parent child := by
  have made : (document.imported (.leaf node)).WellFormed :=
    wellFormed.imported (Tree.keys_differ_leaf node)
  have performed := perform_add_child_at parent
    ((document.imported (.leaf node)).childCount parent) none document.next
    (document.imported (.leaf node))
  simp only [appendNew, perform_bind, perform_new_node, perform_get] at succeeds ⊢
  cases clear : (document.imported (.leaf node)).addFault? parent
      ((document.imported (.leaf node)).childCount parent) none document.next with
  | some fault => simp [performed, clear] at succeeds
  | none =>
    rw [clear] at performed
    have keyed := made.keyed_afresh (congrArg Prod.fst performed)
    rw [performed] at succeeds keyed ⊢
    obtain rfl : document.next = child := Except.ok.inj succeeds
    obtain ⟨parentHere, childHere, apart, -, -⟩ := add_fault_none clear
    refine keyed.of_untouched wellFormed.handlesDiffer (imported_untouched document _) ?_
    -- The parent is not the new node, since no node is added below itself.
    rw [imported_handles, List.mem_append] at parentHere
    refine parentHere.resolve_right fun new => ?_
    obtain ⟨notBelow, notAbove⟩ := List.mem_range'_1.mp new
    obtain rfl : parent = document.next :=
      Nat.le_antisymm (Nat.lt_succ_iff.mp notAbove) notBelow
    have self := ancestor_of_hangs made.handlesDiffer childHere .refl
    rw [apart] at self
    cases self

/-- In every document that can be reached, a child that is added without a key, at an index or
behind the other children, or that is made and added behind them, receives the numeral of the least
number, not below the number of the parent's other children, that none of these has as its key. The
number is at most twice their number. -/
theorem fresh_key_least (reached : Reachable document) (parent child : Handle) :
    (∀ index, (perform (addChildAt parent index none child) document).1 = .ok ⟨⟩ →
      KeyedAfresh document (perform (addChildAt parent index none child) document).2 parent
        child) ∧
    ((perform (addChild parent none child) document).1 = .ok ⟨⟩ →
      KeyedAfresh document (perform (addChild parent none child) document).2 parent child) ∧
    ∀ node, (perform (appendNew parent none node) document).1 = .ok child →
      KeyedAfresh document (perform (appendNew parent none node) document).2 parent child := by
  have wellFormed := reached.well_formed
  refine ⟨fun index succeeds => wellFormed.keyed_afresh succeeds, fun succeeds => ?_,
    fun node succeeds => wellFormed.appended_afresh succeeds⟩
  rw [perform_add_child] at succeeds ⊢
  exact wellFormed.keyed_afresh succeeds

/-- In a list of two items with the keys `2` and `3`, a third one receives the key `4`, which is as
far as the search can go. The first item, put behind the second one without a key, receives the key
`1`, and put in front of it as well. -/
theorem third_item_keyed :
    ∃ document : Document, document.Reachable ∧ document.relations 0 = ["2", "3"] ∧
      (perform (appendNew 0 none (Node.bare "item")) document).1 = .ok 3 ∧
      KeyedAfresh document (perform (appendNew 0 none (Node.bare "item")) document).2 0 3 ∧
      (perform (appendNew 0 none (Node.bare "item")) document).2.relation? 3 = some "4" ∧
      (perform (addChild 0 none 1) document).1 = .ok ⟨⟩ ∧
      KeyedAfresh document (perform (addChild 0 none 1) document).2 0 1 ∧
      (perform (addChild 0 none 1) document).2.relation? 1 = some "1" ∧
      (perform (addChildAt 0 0 none 1) document).1 = .ok ⟨⟩ ∧
      KeyedAfresh document (perform (addChildAt 0 0 none 1) document).2 0 1 ∧
      (perform (addChildAt 0 0 none 1) document).2.relation? 1 = some "1" := by
  let operations : List Operation :=
    [.appendNew 0 (some "2") (Node.bare "item"), .appendNew 0 (some "3") (Node.bare "item")]
  let document := operations.foldl left (ofNode (Node.bare "list"))
  have reached : Reachable document :=
    List.foldlRecOn operations left (.made _) fun _ before operation _ => before.edited operation
  have appended : (perform (appendNew 0 none (Node.bare "item")) document).1 = .ok 3 := by
    decide +kernel
  have added : (perform (addChild 0 none 1) document).1 = .ok ⟨⟩ := by decide +kernel
  have addedAt : (perform (addChildAt 0 0 none 1) document).1 = .ok ⟨⟩ := by decide +kernel
  refine ⟨document, reached, by decide +kernel, appended,
    (fresh_key_least reached 0 3).2.2 _ appended, by decide +kernel, added,
    (fresh_key_least reached 0 1).2.1 added, by decide +kernel, addedAt,
    (fresh_key_least reached 0 1).1 0 addedAt, by decide +kernel⟩

end TreeDelta.Document
