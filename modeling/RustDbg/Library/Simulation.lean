import RustDbg.Library.Transition
import RustDbg.Library.Traversal

/-!
# Simulations that may come to an end

A transition system is simulated by a specification, a relation of abstract states for each
action, as long as it has not come to an end, which it does not leave. What one step keeps up
carries over to runs.
-/

namespace Transition

open Traversal

universe u v w

variable {State : Type u} {Action : Type v} {Abstract : Type w}

/-- Every step that is allowed is one of the specification, or comes to an end. -/
structure Simulates (step : State → Action → Option State) (allowed : State → Action → Prop)
    (specification : Abstract → Action → Abstract → Prop) (related : State → Abstract → Prop)
    (ended : State → Prop) : Prop where
  kept : ∀ state abstract action next, related state abstract → allowed state action →
    step state action = some next →
      (∃ after, specification abstract action after ∧ related next after) ∨ ended next
  stays : ∀ state action next, ended state → step state action = some next → ended next

variable {step : State → Action → Option State} {allowed : State → Action → Prop}
  {specification : Abstract → Action → Abstract → Prop} {related : State → Abstract → Prop}
  {ended : State → Prop} {state last : State} {abstract : Abstract} {actions : List Action}

/-- A run keeps to the specification until it comes to an end. -/
theorem Simulates.run (simulates : Simulates step allowed specification related ended)
    (start : related state abstract) (satisfied : StepsSatisfy step allowed state actions)
    (reached : Transition.run step state actions = some last) :
    (∃ final, Through specification abstract actions final ∧ related last final) ∨ ended last := by
  induction actions generalizing state abstract with
  | nil =>
      cases reached
      exact Or.inl ⟨abstract, .nil, start⟩
  | cons action rest ih =>
      rcases run_cons_eq_some.mp reached with ⟨next, stepped, later⟩
      rcases simulates.kept state abstract action next start satisfied.1 stepped with
        ⟨after, specified, relatedNext⟩ | endedNext
      · rcases ih relatedNext (satisfied.2 next stepped) later with
          ⟨final, path, relatedLast⟩ | endedLast
        · exact Or.inl ⟨final, .cons specified path, relatedLast⟩
        · exact Or.inr endedLast
      · exact Or.inr (invariant_of_run ended simulates.stays endedNext later)

end Transition
