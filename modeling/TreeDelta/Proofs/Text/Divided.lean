/-!
# Texts that can be divided in one way only

A text that has been put together from parts can be taken apart again if it can be seen where each
part ends. It can be seen where a property of all characters of the part first fails. And it can be
seen where the part has been written in a code in which no character begins like another one, and a
mark stands behind it with which none begins.
-/

namespace TreeDelta.Text

/-- Two texts are divided alike where a property of all characters in front first fails. -/
theorem divided_alike {holds : Char → Bool} {first second firstRest secondRest : List Char}
    (same : first ++ firstRest = second ++ secondRest)
    (allFirst : ∀ c ∈ first, holds c) (allSecond : ∀ c ∈ second, holds c)
    (failsFirst : ∀ c ∈ firstRest.head?, holds c = false)
    (failsSecond : ∀ c ∈ secondRest.head?, holds c = false) :
    first = second ∧ firstRest = secondRest := by
  have stops {rest : List Char} (fails : ∀ c ∈ rest.head?, holds c = false) :
      rest.takeWhile holds = [] := by
    cases rest with
    | nil => rfl
    | cons c others => rw [List.takeWhile_cons, fails c rfl]; rfl
  have front := congrArg (List.takeWhile holds) same
  rw [List.takeWhile_append_of_pos allFirst, List.takeWhile_append_of_pos allSecond,
    stops failsFirst, stops failsSecond, List.append_nil, List.append_nil] at front
  subst front
  exact ⟨rfl, List.append_cancel_left same⟩

/-- Two texts in a code with a mark behind them are divided alike if the code of a character, with
whatever stands behind it, tells the character, and none begins with the mark. -/
theorem marked_alike {code : Char → List Char} {mark : Char}
    (apart : ∀ {first second : Char} {firstRest secondRest : List Char},
      code first ++ firstRest = code second ++ secondRest →
        first = second ∧ firstRest = secondRest)
    (unmarked : ∀ (c : Char) (rest other : List Char), code c ++ rest ≠ mark :: other)
    {first second firstRest secondRest : List Char}
    (same : first.flatMap code ++ mark :: firstRest = second.flatMap code ++ mark :: secondRest) :
    first = second ∧ firstRest = secondRest := by
  induction first generalizing second with
  | nil =>
    cases second with
    | nil => exact ⟨rfl, (List.cons.inj same).2⟩
    | cons c others =>
      rw [List.flatMap_cons, List.append_assoc] at same
      exact absurd same.symm (unmarked c _ _)
  | cons c others inductionHypothesis =>
    rw [List.flatMap_cons, List.append_assoc] at same
    cases second with
    | nil => exact absurd same (unmarked c _ _)
    | cons other further =>
      rw [List.flatMap_cons, List.append_assoc] at same
      obtain ⟨rfl, later⟩ := apart same
      obtain ⟨rfl, rests⟩ := inductionHypothesis later
      exact ⟨rfl, rests⟩

end TreeDelta.Text
