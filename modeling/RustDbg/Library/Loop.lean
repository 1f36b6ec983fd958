import Mathlib.Data.Nat.Init

/-!
# Loops that may not end

The body of a loop either goes on with other variables or leaves the loop with a result.
`Leaves` says that a loop is left; there is a rule to show that it is, by a measure, and
one to show that it is not, by an invariant.
-/

namespace Loop

universe u v

/-- What one iteration of a loop comes to. -/
inductive Iteration (State : Type u) (Result : Type v) where
  | goesOn (next : State)
  | leaves (result : Result)

variable {State : Type u} {Result : Type v}

/-- The loop with a body is left with a result. -/
inductive Leaves (body : State → Iteration State Result) : State → Result → Prop where
  | now {state : State} {result : Result} (left : body state = .leaves result) :
      Leaves body state result
  | later {state next : State} {result : Result} (wentOn : body state = .goesOn next)
      (rest : Leaves body next result) : Leaves body state result

variable {body : State → Iteration State Result} {state next : State} {result other : Result}

theorem ne_leaves_of_goesOn (wentOn : body state = .goesOn next) : body state ≠ .leaves result := by
  intro left
  simp only [wentOn] at left
  cases left

theorem leaves_iff_of_leaves (left : body state = .leaves result) :
    Leaves body state other ↔ other = result := by
  constructor
  · rintro (⟨again⟩ | ⟨wentOn, _⟩)
    · simp only [left] at again
      exact (Iteration.leaves.inj again).symm
    · apply absurd left
      exact ne_leaves_of_goesOn wentOn
  · rintro rfl
    exact .now left

theorem leaves_iff_of_goesOn (wentOn : body state = .goesOn next) :
    Leaves body state result ↔ Leaves body next result := by
  constructor
  · rintro (⟨left⟩ | ⟨again, rest⟩)
    · apply absurd left
      exact ne_leaves_of_goesOn wentOn
    · simp only [wentOn] at again
      rw [Iteration.goesOn.inj again]
      exact rest
  · exact .later wentOn

/-- A loop that decreases a measure while it goes on is left. -/
theorem exists_leaves_of_measure (measure : State → Nat)
    (decreases : ∀ state next, body state = .goesOn next → measure next < measure state)
    (state : State) : ∃ result, Leaves body state result := by
  induction bound : measure state using Nat.strong_induction_on generalizing state with
  | _ _ ih =>
      cases iteration : body state with
      | leaves result => exact ⟨result, .now iteration⟩
      | goesOn next =>
          have smaller := decreases state next iteration
          simp only [bound] at smaller
          rcases ih _ smaller next rfl with ⟨result, rest⟩
          exact ⟨result, .later iteration rest⟩

/-- A loop that goes on wherever an invariant holds is not left. -/
theorem not_leaves_of_invariant (Invariant : State → Prop)
    (goesOn : ∀ state, Invariant state → ∃ next, body state = .goesOn next ∧ Invariant next)
    (start : Invariant state) : ¬∃ result, Leaves body state result := by
  rintro ⟨result, left⟩
  induction left with
  | now left =>
      rcases goesOn _ start with ⟨next, wentOn, _⟩
      exact ne_leaves_of_goesOn wentOn left
  | later wentOn _ ih =>
      rcases goesOn _ start with ⟨next, again, invariant⟩
      simp only [wentOn] at again
      simp only [← Iteration.goesOn.inj again] at invariant
      exact ih invariant

end Loop
