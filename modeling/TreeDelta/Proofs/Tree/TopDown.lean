import TreeDelta.Proofs.Tree.Corresponding
import TreeDelta.Proofs.Tree.Preorder
import TreeDelta.Tree.Comparison

/-!
# Comparing two trees from the top down

The plain way of comparing two trees starts at their tops and goes down child by child. Where the
other tree has no child at an index, or a child of another kind or value, the whole subtree is
missing there, and nothing below it is looked at.

The same can be said of one path at a time: a node is missing if the other tree has no node at its
path, or if somewhere on the way to it the two trees have nodes that differ. Walking down reports
exactly the nodes of which this is true, in pre-order. A node that is not missing corresponds to the
node at its path, and so do the nodes above it.

The tops stand for each other without being compared.
-/

namespace TreeDelta

namespace Place

variable {α : Type}

/-- The path of a place of a tree leads to it. -/
theorem follow_path {whole : Tree α} {place : Place α} (listed : place ∈ (top whole).preorder) :
    (top whole).follow? place.path = some place := by
  obtain ⟨steps, path, followed⟩ := ((mem_preorder_iff _ _).mp listed).follows
  obtain rfl : place.path = steps := path
  exact followed

/-- One more index is followed from where the path before it leads to. -/
theorem follow_step (root : Place α) (path : Path) (index : Nat) :
    root.follow? (path ++ [index]) = (root.follow? path).bind (·.child? index) := by
  simp [follow?, List.foldlM_append]

/-- What a path leads to is a place of the tree. -/
theorem listed_of_follow {whole : Tree α} {path : Path} {place : Place α}
    (followed : (top whole).follow? path = some place) : place ∈ (top whole).preorder := by
  rw [mem_preorder_iff]
  induction path using List.reverseRecOn generalizing place with
  | nil =>
    obtain rfl : top whole = place := Option.some.inj followed
    exact .here
  | append_singleton path index inductionHypothesis =>
    rw [follow_step] at followed
    obtain ⟨parent, parentFollowed, found⟩ := Option.bind_eq_some_iff.mp followed
    obtain ⟨child, branch, rfl⟩ := Option.map_eq_some_iff.mp found
    exact (inductionHypothesis parentFollowed).down branch

end Place

namespace Tree

/-- Whether both trees have a node at a path that leads away from the top, and these two nodes
differ in kind or value. -/
def differAt (tree other : SyntaxTree) (path : Path) : Bool :=
  path ≠ [] &&
    match (Place.top tree).follow? path, (Place.top other).follow? path with
    | some place, some counterpart => !place.label.agrees false counterpart.label
    | _, _ => false

/-- Whether the other tree has no node at a path, or the two trees differ somewhere on the way along
it, its end included. -/
def lacks (tree other : SyntaxTree) (path : Path) : Bool :=
  ((Place.top other).follow? path).isNone || path.inits.any (differAt tree other)

mutual

/-- The places of a subtree that are missing in its counterpart: all of them if there is none that
agrees at the top. -/
def lackedFrom (above : List (Step Node)) : SyntaxTree → Option SyntaxTree → List (Place Node)
  | .node label branches, counterpart? =>
    match counterpart?.filter fun counterpart => label.agrees false counterpart.label with
    | some counterpart =>
      lackedBranches (.node label branches) above 0 counterpart.children branches
    | none => Place.preorderFrom above (.node label branches)

/-- The same for the branches of `parent` from `index` on, side by side with the children of its
counterpart. -/
def lackedBranches (parent : SyntaxTree) (above : List (Step Node)) (index : Nat)
    (counterparts : List SyntaxTree) : List (String × SyntaxTree) → List (Place Node)
  | [] => []
  | (_, child) :: rest =>
    lackedFrom (⟨parent, index⟩ :: above) child counterparts.head?
      ++ lackedBranches parent above (index + 1) counterparts.tail rest

end

/-- The places of a tree that are missing in another one, found by walking down both. -/
def lacked (tree other : SyntaxTree) : List (Place Node) :=
  lackedBranches tree [] 0 other.children tree.branches

variable {tree other : SyntaxTree}

/-- The top is never missing. -/
theorem lacks_top : lacks tree other [] = false := by
  simp [lacks, differAt, Place.follow?]

/-- A child is missing if its parent is, or if what stands at its path does not agree with it. -/
theorem lacks_child {child parent : SyntaxTree} {above : List (Step Node)} {index : Nat}
    (listed : Place.mk child (⟨parent, index⟩ :: above) ∈ (Place.top tree).preorder) :
    lacks tree other ((Place.mk parent above).path ++ [index]) =
      (lacks tree other (Place.mk parent above).path ||
        (((Place.top other).follow? ((Place.mk parent above).path ++ [index])).filter
          fun counterpart => child.label.agrees false counterpart.label).isNone) := by
  have here := Place.follow_path listed
  rw [Place.path_step] at here
  generalize (Place.mk parent above).path = path at here ⊢
  have differ : differAt tree other (path ++ [index]) =
      ((Place.top other).follow? (path ++ [index])).any fun counterpart =>
        !child.label.agrees false counterpart.label := by
    rw [differAt, here]
    cases (Place.top other).follow? (path ++ [index]) <;> simp [Place.label]
  have onTheWay : (path ++ [index]).inits.any (differAt tree other) =
      (path.inits.any (differAt tree other) || differAt tree other (path ++ [index])) := by
    simp [List.inits_append]
  rw [lacks, lacks, onTheWay, differ]
  cases followed : (Place.top other).follow? (path ++ [index]) with
  | none => simp
  | some counterpart =>
    -- Where the other tree has the child, it has the parent.
    have parentFollowed : ((Place.top other).follow? path).isNone = false := by
      rw [Place.follow_step] at followed
      obtain ⟨_, found, -⟩ := Option.bind_eq_some_iff.mp followed
      rw [found]
      rfl
    rw [parentFollowed]
    cases child.label.agrees false counterpart.label <;> simp_all

/-- What stands below a missing node is missing. -/
theorem lacks_below {root place : Place Node} (listed : root ∈ (Place.top tree).preorder)
    (missing : lacks tree other root.path = true) (reached : Place.Reaches root place) :
    lacks tree other place.path = true := by
  induction reached with
  | here => exact missing
  | @down place index child reached branch inductionHypothesis =>
    have below : place.down index child ∈ (Place.top tree).preorder :=
      (Place.mem_preorder_iff _ _).mpr
        ((((Place.mem_preorder_iff _ _).mp listed).trans reached).down branch)
    rw [Place.down, Place.path_step, lacks_child below, inductionHypothesis, Bool.true_or]

mutual

/-- From a place whose parent is not missing downwards, walking down both trees finds what is
missing. -/
theorem lacked_from_eq {above : List (Step Node)} {subtree : SyntaxTree}
    {counterpart? : Option (Place Node)}
    (listed : Place.mk subtree above ∈ (Place.top tree).preorder)
    (followed : (Place.top other).follow? (Place.mk subtree above).path = counterpart?)
    (missing : lacks tree other (Place.mk subtree above).path =
      (counterpart?.filter fun counterpart =>
        subtree.label.agrees false counterpart.label).isNone) :
    (Place.preorderFrom above subtree).filter (fun place => lacks tree other place.path) =
      lackedFrom above subtree (counterpart?.map Place.tree) := by
  cases subtree with
  | node label branches =>
    cases kept : counterpart?.filter fun counterpart => label.agrees false counterpart.label with
    | none =>
      have nothing : (counterpart?.map Place.tree).filter
          (fun counterpart => label.agrees false counterpart.label) = none := by
        rw [Option.filter_map]
        exact congrArg (Option.map Place.tree) kept
      have everything : ∀ place ∈ Place.preorderFrom above (.node label branches),
          lacks tree other place.path = true := by
        intro place inside
        refine lacks_below listed ?_ (Place.reaches_of_listed _ _ _ inside)
        rw [missing, label_node, kept, Option.isNone_none]
      rw [lackedFrom, nothing, List.filter_eq_self.mpr everything]
    | some counterpart =>
      have agreeing : (counterpart?.map Place.tree).filter
          (fun counterpart => label.agrees false counterpart.label) = some counterpart.tree := by
        rw [Option.filter_map]
        exact congrArg (Option.map Place.tree) kept
      have present : lacks tree other (Place.mk (.node label branches) above).path = false := by
        rw [missing, label_node, kept, Option.isNone_some]
      obtain ⟨rfl, -⟩ := Option.filter_eq_some_iff.mp kept
      rw [lackedFrom, agreeing, Place.preorderFrom, List.filter_cons_of_neg (by simp [present])]
      exact lacked_branches_eq listed present followed 0 rfl rfl

/-- The same for the branches of a place that is not missing, from an index on. -/
theorem lacked_branches_eq {above : List (Step Node)} {parent : SyntaxTree}
    {counterpart : Place Node} {branches : List (String × SyntaxTree)}
    {counterparts : List SyntaxTree}
    (listed : Place.mk parent above ∈ (Place.top tree).preorder)
    (present : lacks tree other (Place.mk parent above).path = false)
    (followed : (Place.top other).follow? (Place.mk parent above).path = some counterpart)
    (index : Nat) (rest : parent.branches.drop index = branches)
    (others : counterpart.tree.children.drop index = counterparts) :
    (Place.preorderBranches parent above index branches).filter
        (fun place => lacks tree other place.path) =
      lackedBranches parent above index counterparts branches := by
  cases branches with
  | nil => rfl
  | cons branch later =>
    have branchAt : parent.children[index]? = some branch.2 := by
      rw [children, List.getElem?_map, ← List.head?_drop, rest]
      rfl
    have below : Place.mk branch.2 (⟨parent, index⟩ :: above) ∈ (Place.top tree).preorder :=
      (Place.mem_preorder_iff _ _).mpr (((Place.mem_preorder_iff _ _).mp listed).down branchAt)
    have child : (Place.top other).follow? (Place.mk branch.2 (⟨parent, index⟩ :: above)).path =
        counterpart.child? index := by
      rw [Place.path_step, Place.follow_step, followed, Option.bind_some]
    have first : counterparts.head? = (counterpart.child? index).map Place.tree := by
      rw [← others, List.head?_drop, Place.child?, Option.map_map]
      cases counterpart.tree.children[index]? <;> rfl
    rw [Place.preorderBranches, List.filter_append, lackedBranches, first]
    congr 1
    · refine lacked_from_eq below child ?_
      rw [← child, Place.path_step, lacks_child below, present, Bool.false_or]
    · refine lacked_branches_eq listed present followed (index + 1) ?_ ?_
      · rw [← List.drop_drop, rest, List.drop_one, List.tail_cons]
      · rw [← List.drop_drop, others, List.drop_one]

end

/-- Walking down both trees finds, in pre-order, what is missing. -/
theorem lacked_eq (tree other : SyntaxTree) :
    lacked tree other =
      (Place.top tree).preorder.filter fun place => lacks tree other place.path := by
  have listed : Place.top tree ∈ (Place.top tree).preorder :=
    (Place.mem_preorder_iff _ _).mpr .here
  have followed : (Place.top other).follow? (Place.top tree).path = some (Place.top other) := rfl
  have below := lacked_branches_eq listed lacks_top followed 0 rfl rfl
  obtain ⟨label, branches⟩ := tree
  rw [lacked, Place.preorder, Place.top, Place.preorderFrom,
    List.filter_cons_of_neg (by simp [Place.path, lacks_top])]
  exact below.symm

/-- Two places have the same way up from them: they stand at the same path, and the nodes on the way
agree, all but the tops. -/
abbrev Alike : Place Node → Place Node → Prop :=
  Place.Corresponds (fun _ _ => true) (Node.agrees false)

/-- A node is not missing if the other tree has a place like its own. -/
theorem present_iff {place : Place Node} (listed : place ∈ (Place.top tree).preorder) :
    lacks tree other place.path = false ↔
      ∃ counterpart ∈ (Place.top other).preorder, Alike place counterpart := by
  obtain ⟨subtree, above⟩ := place
  induction above generalizing subtree with
  | nil =>
    have present : lacks tree other (Place.mk subtree []).path = false := lacks_top
    refine iff_of_true present ⟨Place.top other, ?_, .top rfl⟩
    exact (Place.mem_preorder_iff _ _).mpr .here
  | cons up further inductionHypothesis =>
    obtain ⟨parentListed, -⟩ := Place.parent_listed listed
    rw [Place.path_step, lacks_child listed, Bool.or_eq_false_iff,
      inductionHypothesis up.tree parentListed]
    constructor
    · rintro ⟨⟨parent, parentMember, above⟩, agreeing⟩
      obtain ⟨child, kept⟩ := Option.isSome_iff_exists.mp (Option.isNone_eq_false_iff.mp agreeing)
      obtain ⟨followed, agrees⟩ := Option.filter_eq_some_iff.mp kept
      refine ⟨child, Place.listed_of_follow followed, ?_⟩
      rw [above.path, Place.follow_step, Place.follow_path parentMember, Option.bind_some]
        at followed
      obtain ⟨counterpart, -, rfl⟩ := Option.map_eq_some_iff.mp followed
      exact .child above rfl agrees
    · rintro ⟨counterpart, member, alike⟩
      have followed := Place.follow_path member
      rw [← alike.path, Place.path_step] at followed
      cases alike with
      | child above index labels =>
        refine ⟨⟨_, (Place.parent_listed member).1, above⟩, ?_⟩
        rw [followed]
        simpa [Place.label] using labels

end Tree

end TreeDelta
