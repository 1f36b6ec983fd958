import Mathlib.Data.List.Basic
import Mathlib.Order.Basic

/-!
# Runs of a deterministic transition system

A system is a partial function from a state and an action to the next state;
`none` means that the action is not possible there. The file gives runs over
lists of actions, the two induction rules used for invariants, and the rule
that exchanges a property of steps for an equivalent condition on them.
-/

namespace Transition

universe u v

variable {State : Type u} {Action : Type v}

/-- The state after a list of actions, or `none` when one of them is not possible. -/
def run (step : State → Action → Option State) (state : State) :
    List Action → Option State
  | [] => some state
  | action :: rest => (step state action).bind fun next => run step next rest

/-- Every step taken along a list of actions satisfies `holds`. -/
def StepsSatisfy (step : State → Action → Option State) (holds : State → Action → Prop)
    (state : State) : List Action → Prop
  | [] => True
  | action :: rest =>
      holds state action ∧
        ∀ next, step state action = some next → StepsSatisfy step holds next rest

variable {step : State → Action → Option State}

@[simp]
theorem run_nil (state : State) : run step state [] = some state := rfl

theorem run_cons_eq_some {state last : State} {action : Action} {rest : List Action} :
    run step state (action :: rest) = some last ↔
      ∃ next, step state action = some next ∧ run step next rest = some last := by
  simp [run, Option.bind_eq_some_iff]

theorem run_append (state : State) (front back : List Action) :
    run step state (front ++ back) = (run step state front).bind fun middle =>
      run step middle back := by
  induction front generalizing state with
  | nil => rfl
  | cons action rest ih =>
      simp only [List.cons_append, run, Option.bind_assoc]
      congr 1
      funext next
      exact ih next

/-- An invariant that every step preserves holds of whatever a run reaches. -/
theorem invariant_of_run (Invariant : State → Prop)
    (preserved : ∀ state action next, Invariant state → step state action = some next →
      Invariant next)
    {state last : State} {actions : List Action} (start : Invariant state)
    (reached : run step state actions = some last) : Invariant last := by
  induction actions generalizing state with
  | nil =>
      simp only [run_nil, Option.some.injEq] at reached
      exact reached ▸ start
  | cons action rest ih =>
      rcases run_cons_eq_some.mp reached with ⟨next, stepped, finished⟩
      exact ih (preserved state action next start stepped) finished

/--
Along a run two properties of steps are exchangeable when they agree at every
state of an invariant that the second one preserves.
-/
theorem stepsSatisfy_congr (Invariant : State → Prop)
    {property condition : State → Action → Prop}
    (agree : ∀ state action, Invariant state → (property state action ↔ condition state action))
    (preserved : ∀ state action next, Invariant state → condition state action →
      step state action = some next → Invariant next)
    {state : State} (start : Invariant state) (actions : List Action) :
    StepsSatisfy step property state actions ↔ StepsSatisfy step condition state actions := by
  induction actions generalizing state with
  | nil => exact Iff.rfl
  | cons action rest ih =>
      simp only [StepsSatisfy]
      constructor
      · rintro ⟨holdsNow, holdsLater⟩
        have conditionNow := (agree state action start).mp holdsNow
        refine ⟨conditionNow, ?_⟩
        intro next stepped
        exact (ih (preserved state action next start conditionNow stepped)).mp
          (holdsLater next stepped)
      · rintro ⟨conditionNow, conditionLater⟩
        refine ⟨(agree state action start).mpr conditionNow, ?_⟩
        intro next stepped
        exact (ih (preserved state action next start conditionNow stepped)).mpr
          (conditionLater next stepped)

theorem stepsSatisfy_and {first second : State → Action → Prop} {state : State}
    {actions : List Action} :
    StepsSatisfy step (fun before action => first before action ∧ second before action)
        state actions ↔
      StepsSatisfy step first state actions ∧ StepsSatisfy step second state actions := by
  induction actions generalizing state with
  | nil => simp [StepsSatisfy]
  | cons action rest ih =>
      simp only [StepsSatisfy, ih]
      constructor
      · rintro ⟨⟨firstNow, secondNow⟩, later⟩
        exact ⟨⟨firstNow, fun next stepped => (later next stepped).1⟩,
          secondNow, fun next stepped => (later next stepped).2⟩
      · rintro ⟨⟨firstNow, firstLater⟩, secondNow, secondLater⟩
        exact ⟨⟨firstNow, secondNow⟩,
          fun next stepped => ⟨firstLater next stepped, secondLater next stepped⟩⟩

/-- A property of states holds all along a run iff it holds at first and after every step. -/
theorem forall_reached_iff {property : State → Prop} {state : State} {actions : List Action} :
    (∀ front last, front <+: actions → run step state front = some last → property last) ↔
      property state ∧
        StepsSatisfy step (fun before action => ∀ after, step before action = some after →
          property after) state actions := by
  induction actions generalizing state with
  | nil =>
      constructor
      · intro always
        exact ⟨always [] state List.prefix_rfl rfl, trivial⟩
      · rintro ⟨first, -⟩ front last isPrefix reached
        rcases List.prefix_nil.mp isPrefix with rfl
        simp only [run_nil, Option.some.injEq] at reached
        exact reached ▸ first
  | cons action rest ih =>
      constructor
      · intro always
        refine ⟨always [] state List.nil_prefix rfl, ?_, ?_⟩
        · intro after stepped
          apply always [action] after (by simp)
          apply run_cons_eq_some.mpr
          exact ⟨after, stepped, rfl⟩
        · intro after stepped
          refine (ih.mp ?_).2
          intro front last isPrefix reached
          apply always (action :: front) last (List.cons_prefix_cons.mpr ⟨rfl, isPrefix⟩)
          apply run_cons_eq_some.mpr
          exact ⟨after, stepped, reached⟩
      · rintro ⟨first, now, later⟩ front last isPrefix reached
        rcases front with _ | ⟨head, front⟩
        · simp only [run_nil, Option.some.injEq] at reached
          exact reached ▸ first
        · rcases List.cons_prefix_cons.mp isPrefix with ⟨rfl, frontPrefix⟩
          rcases run_cons_eq_some.mp reached with ⟨next, stepped, finished⟩
          exact ih.mpr ⟨now next stepped, later next stepped⟩ front last frontPrefix finished

end Transition
