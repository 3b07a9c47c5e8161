import TreeDelta.Proofs.Document.Relocation
import TreeDelta.Proofs.Tree.Around

/-!
# Documents with changed entries

An operation that only changes what nodes carry relabels the trees of a document. As long as it
leaves the handles alone, every node stays where it is, and what it carries is changed on its own.
Several such operations, one after the other, change each entry by one step after the other.
-/

namespace TreeDelta.Document

/-- A document whose entries are changed, each on its own. -/
def relabel (change : Entry → Entry) (document : Document) : Document :=
  { document with trees := document.trees.map (Tree.map change) }

variable {document : Document} {change : Entry → Entry}

/-- The places of a relabelled document are the relabelled places. -/
theorem relabel_places :
    (document.relabel change).places = document.places.map (Place.map change) := by
  simp only [places, relabel, List.flatMap_map, Place.preorder_map, List.map_flatMap]

/-- The place of a node of a relabelled document is its relabelled place. -/
theorem relabel_place (keeps : ∀ entry, (change entry).handle = entry.handle) (handle : Handle) :
    (document.relabel change).place? handle = (document.place? handle).map (Place.map change) := by
  have same (place : Place Entry) :
      (place.map change).label.handle = place.label.handle := by
    rw [Place.label, Place.map, Tree.label_map, keeps]
    rfl
  rw [place?, relabel_places, List.find?_map]
  simp only [Function.comp_def, same]
  rfl

/-- What a node of a relabelled document carries is what its entry is changed to. -/
theorem relabel_node (keeps : ∀ entry, (change entry).handle = entry.handle) (handle : Handle) :
    (document.relabel change).node? handle =
      (document.place? handle).map fun place => (change place.label).node := by
  rw [node?, relabel_place keeps, Option.map_map]
  refine congrArg (Option.map · _) (funext fun place => ?_)
  exact congrArg Entry.node (Tree.label_map change place.tree)

/-- The nodes from a node downwards stay the same. -/
theorem relabel_descendants (keeps : ∀ entry, (change entry).handle = entry.handle)
    (handle : Handle) :
    (document.relabel change).descendants handle = document.descendants handle := by
  rw [descendants, relabel_place keeps, descendants]
  cases document.place? handle with
  | none => rfl
  | some place =>
    simp only [Option.map_some, Place.map, Tree.preorder_map, List.map_map, Function.comp_def,
      keeps]

/-- One change after the other changes each entry by one step after the other. -/
theorem fold_relabel {μ : Type} (step : Entry → μ → Entry) (marks : List μ)
    (document : Document) :
    marks.foldl (fun document mark => document.relabel fun entry => step entry mark) document =
      document.relabel fun entry => marks.foldl step entry := by
  induction marks generalizing document with
  | nil =>
    have same : Tree.map (fun entry : Entry => entry) = id := funext Tree.map_same
    simp [relabel, same]
  | cons mark rest inductionHypothesis =>
    rw [List.foldl_cons, inductionHypothesis]
    simp only [relabel, List.map_map, Function.comp_def, Tree.map_map, List.foldl_cons]

/-- The nodes from a node downwards have places. -/
theorem place_of_descendant (unique : document.handles.Nodup) {handle lower : Handle}
    (inside : lower ∈ document.descendants handle) :
    ∃ place, document.place? lower = some place := by
  rw [descendants] at inside
  cases found : document.place? handle with
  | none => simp [found] at inside
  | some place =>
    rw [found] at inside
    obtain ⟨entry, entryInside, rfl⟩ := List.mem_map.mp inside
    have carried := node_of_entry unique (place_found found).1 entryInside
    obtain ⟨lowerPlace, lowerFound, -⟩ := Option.map_eq_some_iff.mp carried
    exact ⟨lowerPlace, lowerFound⟩

/-- The nodes from a node downwards are different ones. -/
theorem descendants_nodup (unique : document.handles.Nodup) (handle : Handle) :
    (document.descendants handle).Nodup := by
  rw [descendants]
  cases found : document.place? handle with
  | none => exact List.nodup_nil
  | some place =>
    obtain ⟨whole, member, inside⟩ := List.mem_flatMap.mp (place_found found).1
    obtain ⟨before, around⟩ := Place.preorder_around inside
    have wholeUnique := (List.nodup_flatMap.mp unique).1 whole member
    have labels : whole.preorder = before.map Place.label ++ place.tree.preorder ++
        place.behind.map Place.label := by
      have ofWhole : (Place.top whole).preorder.map Place.label = whole.preorder :=
        Place.preorder_labels (Place.top whole)
      rw [← ofWhole, around, List.map_append, List.map_append, Place.preorder_labels place]
    rw [labels, List.map_append, List.map_append] at wholeUnique
    exact (List.nodup_append.mp (List.nodup_append.mp wholeUnique).1).2.1

end TreeDelta.Document
