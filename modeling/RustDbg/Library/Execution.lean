import Mathlib.Computability.StateTransition

/-!
# Running a deterministic machine to its next stop

A machine is a partial function from a state to the next one. `StopsAt` runs it until
a condition first holds, possibly at once, and `StopsAfter` makes at least one step
before it looks. Two machines that step alike through an embedding of their states
stop alike, as long as an invariant of the embedded one holds.
-/

namespace Execution

open StateTransition

universe u v

variable {State : Type u} {Concrete : Type v}

/-- Running from a state until the first one, this one included, in which `stop` holds. -/
inductive StopsAt (step : State → Option State) (stop : State → Prop) : State → State → Prop where
  | here {state : State} (stopped : stop state) : StopsAt step stop state state
  | later {state next last : State} (going : ¬ stop state) (stepped : step state = some next)
      (rest : StopsAt step stop next last) : StopsAt step stop state last

/-- Making a step and running from there until the first state in which `stop` holds. -/
def StopsAfter (step : State → Option State) (stop : State → Prop) (state last : State) : Prop :=
  ∃ next, step state = some next ∧ StopsAt step stop next last

variable {step : State → Option State} {stop : State → Prop} {state last : State}

theorem StopsAt.stopped (run : StopsAt step stop state last) : stop last := by
  induction run with
  | here stopped => exact stopped
  | later _ _ _ ih => exact ih

theorem StopsAt.reaches (run : StopsAt step stop state last) : Reaches step state last := by
  induction run with
  | here _ => exact .refl
  | later _ stepped _ ih => exact .head stepped ih

theorem StopsAfter.reaches (run : StopsAfter step stop state last) : Reaches step state last := by
  rcases run with ⟨next, stepped, rest⟩
  exact .head stepped rest.reaches

theorem StopsAt.stopsAfter (run : StopsAt step stop state last) (going : ¬ stop state) :
    StopsAfter step stop state last := by
  cases run with
  | here stopped => exact absurd stopped going
  | later _ stepped rest => exact ⟨_, stepped, rest⟩

/-- A run to a condition that ends in a stronger one is a run to the stronger one. -/
theorem StopsAt.strengthen {stop' : State → Prop} (run : StopsAt step stop state last)
    (stronger : ∀ state, stop' state → stop state) (stopped : stop' last) :
    StopsAt step stop' state last := by
  induction run with
  | here _ => exact .here stopped
  | later going stepped _ ih => exact .later (going ∘ stronger _) stepped (ih stopped)

theorem reaches_invariant (Invariant : State → Prop)
    (preserved : ∀ state next, Invariant state → step state = some next → Invariant next)
    (start : Invariant state) (reaches : Reaches step state last) : Invariant last := by
  induction reaches with
  | refl => exact start
  | tail _ stepped ih => exact preserved _ _ ih stepped

/-- A machine whose steps all decrease a measure runs to a state without a step. -/
theorem exists_mem_eval_of_measure (measure : State → Nat)
    (decreases : ∀ state next, step state = some next → measure next < measure state)
    (state : State) : ∃ last, last ∈ eval step state := by
  induction bound : measure state using Nat.strong_induction_on generalizing state with
  | _ _ ih =>
      cases stepped : step state with
      | none => exact ⟨state, mem_eval.mpr ⟨.refl, stepped⟩⟩
      | some next =>
          have smaller := decreases state next stepped
          rw [bound] at smaller
          rcases ih _ smaller next rfl with ⟨last, ended⟩
          rcases mem_eval.mp ended with ⟨reaches, final⟩
          exact ⟨last, mem_eval.mpr ⟨.head stepped reaches, final⟩⟩

/--
A machine that steps and stops like another one on the embedded states of an
invariant runs from embedded states to embedded states only, and as the other does.
-/
theorem StopsAt.of_embedding {concreteStep : Concrete → Option Concrete}
    {concreteStop : Concrete → Prop} (embed : State → Concrete) (Invariant : State → Prop)
    (preserved : ∀ state next, Invariant state → step state = some next → Invariant next)
    (stops : ∀ state, Invariant state → (concreteStop (embed state) ↔ stop state))
    (steps : ∀ state, Invariant state → ¬ stop state →
      concreteStep (embed state) = (step state).map embed)
    (invariant : Invariant state) {concreteLast : Concrete}
    (run : StopsAt concreteStep concreteStop (embed state) concreteLast) :
    ∃ last, concreteLast = embed last ∧ Invariant last ∧ StopsAt step stop state last := by
  generalize start : embed state = concrete at run
  induction run generalizing state with
  | here stopped =>
      subst start
      exact ⟨state, rfl, invariant, .here ((stops state invariant).mp stopped)⟩
  | later going stepped _ ih =>
      subst start
      have goingHere : ¬ stop state := going ∘ (stops state invariant).mpr
      simp only [steps state invariant goingHere, Option.map_eq_some_iff] at stepped
      rcases stepped with ⟨next, stepped, rfl⟩
      rcases ih (preserved state next invariant stepped) rfl with
        ⟨last, last_eq, lastInvariant, rest⟩
      exact ⟨last, last_eq, lastInvariant, .later goingHere stepped rest⟩

end Execution
