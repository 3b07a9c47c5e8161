import TreeDelta.Proofs.SharedIds

/-!
# Addresses lead to their nodes

An address is made of steps: it starts at the top or at an id, and every further step names an index
and the kind and value of the node there. Such an address leads to a place if each of its steps
does, and in a tree without repeated ids the place it leads to is the place that is found for it.
Both the address of a place in its own tree and its address through the nodes that share its id lead
to the place, although they may start at different nodes. So neither of them belongs to two places.
-/

namespace TreeDelta.Address

/-- An address leads to a place by steps that can be followed from the top, or from an id that the
place itself carries. -/
inductive Leads : Address → Place Node → Prop where
  | top (tree : SyntaxTree) : Leads .top ⟨tree, []⟩
  | named {place : Place Node} {id : String} (carried : place.label.id? = some id) :
      Leads (.named id) place
  | step {address : Address} {tree : SyntaxTree} {up : Step Node} {further : List (Step Node)}
      (leads : Leads address ⟨up.tree, further⟩) :
      Leads (step tree.label up.index address) ⟨tree, up :: further⟩

/-- An address that leads to a place of a tree without repeated ids is resolved to that place. -/
theorem Leads.resolve {tree : SyntaxTree} (distinct : tree.DistinctIds) {address : Address}
    {place : Place Node} (leads : Leads address place)
    (listed : place ∈ (Place.top tree).preorder) :
    resolve? (Place.top tree) address = some place := by
  induction leads with
  | top other =>
    have reached := (Place.mem_preorder_iff _ _).mp listed
    exact congrArg some (Place.Reaches.eq_of_path .here reached rfl)
  | named carried => exact find_by_id distinct listed carried
  | @step address child up further _ inductionHypothesis =>
    obtain ⟨aboveListed, branch⟩ := Place.parent_listed listed
    have above := inductionHypothesis aboveListed
    simp [Address.step, resolve?, above, Place.child_found further branch, Place.label]

/-- In a tree without repeated ids, addresses that lead to their places tell the places apart. -/
theorem Leads.tells_apart {tree : SyntaxTree} (distinct : tree.DistinctIds)
    {address : Place Node → Address}
    (leads : ∀ place ∈ (Place.top tree).preorder, (address place).Leads place)
    {first second : Place Node} (firstListed : first ∈ (Place.top tree).preorder)
    (secondListed : second ∈ (Place.top tree).preorder) (same : address first = address second) :
    first = second := by
  have resolved := (leads first firstListed).resolve distinct firstListed
  rw [same, (leads second secondListed).resolve distinct secondListed] at resolved
  exact (Option.some.inj resolved).symm

/-- A place with an id is addressed by the id. -/
theorem of_place_named {place : Place Node} {id : String} (carried : place.label.id? = some id) :
    ofPlace place = .named id := by
  obtain ⟨tree, above⟩ := place
  have here : tree.label.id? = some id := carried
  cases above <;> simp [ofPlace, ofSteps, here]

/-- The top of a tree without an id is the address that others start from. -/
theorem of_place_top {tree : SyntaxTree} (unnamed : (Place.mk tree []).label.id? = none) :
    ofPlace ⟨tree, []⟩ = .top := by
  have here : tree.label.id? = none := unnamed
  simp [ofPlace, ofSteps, here]

/-- A place without an id is addressed by its index below the address of its parent. -/
theorem of_place_below {tree : SyntaxTree} {up : Step Node} {further : List (Step Node)}
    (unnamed : (Place.mk tree (up :: further)).label.id? = none) :
    ofPlace ⟨tree, up :: further⟩ = step tree.label up.index (ofPlace ⟨up.tree, further⟩) := by
  have here : tree.label.id? = none := unnamed
  simp [ofPlace, ofSteps, here]

/-- Only the top of a tree is addressed as the top, and only if it has no id. -/
theorem of_place_eq_top_iff (place : Place Node) :
    ofPlace place = .top ↔ place.above = [] ∧ place.label.id? = none := by
  obtain ⟨tree, above⟩ := place
  cases carried : (Place.mk tree above).label.id? with
  | some id => simp [of_place_named carried]
  | none =>
    cases above with
    | nil => simp [of_place_top carried]
    | cons up further => simp [of_place_below carried, step]

/-- The address of the top of a tree is a matter of its id. -/
theorem of_place_whole (tree : SyntaxTree) :
    ofPlace (Place.top tree) = (tree.label.id?.map named).getD top := by
  cases carried : (Place.mk tree []).label.id? with
  | some id => simp [Place.top, of_place_named carried, show tree.label.id? = some id from carried]
  | none => simp [Place.top, of_place_top carried, show tree.label.id? = none from carried]

/-- The address of a place in its own tree leads to the place. -/
theorem of_place_leads (place : Place Node) : Leads (ofPlace place) place := by
  obtain ⟨tree, above⟩ := place
  induction above generalizing tree with
  | nil =>
    cases carried : (Place.mk tree []).label.id? with
    | some id =>
      rw [of_place_named carried]
      exact .named carried
    | none =>
      rw [of_place_top carried]
      exact .top tree
  | cons up further inductionHypothesis =>
    cases carried : (Place.mk tree (up :: further)).label.id? with
    | some id =>
      rw [of_place_named carried]
      exact .named carried
    | none =>
      rw [of_place_below carried]
      exact (inductionHypothesis up.tree).step

/-- A place with a counterpart is addressed by it. -/
theorem through_paired {mapping : Correspondence} {place counterpart : Place Node}
    (found : mapping.left? place = some counterpart) :
    through mapping place = ofPlace counterpart := by
  obtain ⟨tree, above⟩ := place
  cases above <;> simp [through, throughSteps, found]

/-- The top of a tree has no parent to be addressed from. -/
theorem through_top {mapping : Correspondence} {tree : SyntaxTree}
    (alone : mapping.left? ⟨tree, []⟩ = none) : through mapping ⟨tree, []⟩ = .top := by
  simp [through, throughSteps, alone]

/-- A place without a counterpart is addressed by its index below the address of its parent. -/
theorem through_below {mapping : Correspondence} {tree : SyntaxTree} {up : Step Node}
    {further : List (Step Node)} (alone : mapping.left? ⟨tree, up :: further⟩ = none) :
    through mapping ⟨tree, up :: further⟩ =
      step tree.label up.index (through mapping ⟨up.tree, further⟩) := by
  simp [through, throughSteps, alone]

/-- The address of a place of the right tree through a correspondence by id leads to the place. A
counterpart gives its id to the address, and the place carries the same id. -/
theorem through_leads {left : Place Node} {right : SyntaxTree} {mapping : Correspondence}
    (byId : Correspondence.ById left (Place.top right) mapping) (place : Place Node)
    (listed : place ∈ (Place.top right).preorder) : Leads (through mapping place) place := by
  have named {place counterpart : Place Node} (listed : place ∈ (Place.top right).preorder)
      (found : mapping.left? place = some counterpart) : Leads (through mapping place) place := by
    obtain ⟨_, id, counterpartId, placeId⟩ := byId _ listed _ found
    rw [through_paired found, of_place_named counterpartId]
    exact .named placeId
  obtain ⟨tree, above⟩ := place
  induction above generalizing tree with
  | nil =>
    cases found : mapping.left? ⟨tree, []⟩ with
    | some counterpart => exact named listed found
    | none =>
      rw [through_top found]
      exact .top tree
  | cons up further inductionHypothesis =>
    cases found : mapping.left? ⟨tree, up :: further⟩ with
    | some counterpart => exact named listed found
    | none =>
      rw [through_below found]
      exact (inductionHypothesis up.tree (Place.parent_listed listed).1).step

end TreeDelta.Address
