/-!
# Data refinement

An object is a partial function from a state and an operation to an outcome and the next
state. One object refines another under a relation of their states if it has the same
outcomes wherever the other one has any. This carries over to runs.
-/

namespace Refinement

universe u v w x

variable {State : Type u} {Abstract : Type v} {Operation : Type w} {Outcome : Type x}

/-- Some operations one after the other. -/
def execute (perform : State → Operation → Option (Outcome × State)) (state : State) :
    List Operation → Option (List Outcome × State)
  | [] => some ([], state)
  | operation :: rest => do
      let (outcome, next) ← perform state operation
      let (outcomes, last) ← execute perform next rest
      return (outcome :: outcomes, last)

/-- What the specification allows is done in the same way, and the relation is kept. -/
def Refines (perform : State → Operation → Option (Outcome × State))
    (specification : Abstract → Operation → Option (Outcome × Abstract))
    (represents : State → Abstract → Prop) : Prop :=
  ∀ state abstract operation outcome abstract', represents state abstract →
    specification abstract operation = some (outcome, abstract') →
      ∃ state', perform state operation = some (outcome, state') ∧ represents state' abstract'

variable {perform : State → Operation → Option (Outcome × State)}
  {specification : Abstract → Operation → Option (Outcome × Abstract)}
  {represents : State → Abstract → Prop} {state last : State} {abstract lastAbstract : Abstract}
  {operation : Operation} {rest operations : List Operation} {outcomes : List Outcome}

theorem execute_cons_eq_some_iff :
    execute perform state (operation :: rest) = some (outcomes, last) ↔
      ∃ outcome next others, perform state operation = some (outcome, next) ∧
        execute perform next rest = some (others, last) ∧ outcomes = outcome :: others := by
  simp only [execute, Option.bind_eq_bind, Option.bind_eq_some_iff, Option.pure_def, Prod.exists,
    Option.some.injEq, Prod.mk.injEq]
  constructor
  · rintro ⟨outcome, next, performed, others, _, ran, rfl, rfl⟩
    exact ⟨outcome, next, others, performed, ran, rfl⟩
  · rintro ⟨outcome, next, others, performed, ran, rfl⟩
    exact ⟨outcome, next, performed, others, last, ran, rfl, rfl⟩

theorem Refines.execute (refines : Refines perform specification represents)
    (related : represents state abstract)
    (ran : execute specification abstract operations = some (outcomes, lastAbstract)) :
    ∃ last, Refinement.execute perform state operations = some (outcomes, last) ∧
      represents last lastAbstract := by
  induction operations generalizing state abstract outcomes with
  | nil =>
      simp only [Refinement.execute, Option.some.injEq, Prod.mk.injEq] at ran
      rcases ran with ⟨rfl, rfl⟩
      exact ⟨state, rfl, related⟩
  | cons operation rest ih =>
      rcases execute_cons_eq_some_iff.mp ran with ⟨outcome, next, others, performed, later, rfl⟩
      rcases refines _ _ _ _ _ related performed with ⟨state', performed', related'⟩
      rcases ih related' later with ⟨last, later', related'⟩
      exact ⟨last, execute_cons_eq_some_iff.mpr ⟨_, _, _, performed', later', rfl⟩, related'⟩

end Refinement
