import Mathlib.Data.List.Basic

/-!
# A system between the answers of its environment

A system and its environment change a state by turns. The environment answers when it is
asked, each answer being used once and in order; between two answers the system interferes
with the state in a way that a relation bounds. The file gives the runs of the two.
-/

namespace Interleaving

universe u v

variable {State : Type u} {Outcome : Type v}

/-- An answer of the environment to the state it is asked in; none if it does not come. -/
abbrev Answer (State : Type u) (Outcome : Type v) := State → Option (State × Outcome)

/-- The answers have been used one after the other, with these outcomes. -/
inductive Interleaved (interferes : State → State → Prop) :
    List (Answer State Outcome) → List Outcome → State → State → Prop where
  | own {before after : State} (own : interferes before after) :
      Interleaved interferes [] [] before after
  | answered {before asked changed after : State} {answer : Answer State Outcome}
      {outcome : Outcome} {answers : List (Answer State Outcome)} {outcomes : List Outcome}
      (own : interferes before asked) (given : answer asked = some (changed, outcome))
      (later : Interleaved interferes answers outcomes changed after) :
      Interleaved interferes (answer :: answers) (outcome :: outcomes) before after

namespace Interleaved

variable {interferes : State → State → Prop} {answers later : List (Answer State Outcome)}
  {outcomes others : List Outcome} {before middle after : State}

theorem prepend (transitive : ∀ {first second third}, interferes first second →
      interferes second third → interferes first third)
    (own : interferes before middle)
    (run : Interleaved interferes answers outcomes middle after) :
    Interleaved interferes answers outcomes before after := by
  cases run with
  | own later => exact .own (transitive own later)
  | answered first given later => exact .answered (transitive own first) given later

/-- One run after the other is a run in which all their answers have been used. -/
theorem append (transitive : ∀ {first second third}, interferes first second →
      interferes second third → interferes first third)
    (run : Interleaved interferes answers outcomes before middle)
    (second : Interleaved interferes later others middle after) :
    Interleaved interferes (answers ++ later) (outcomes ++ others) before after := by
  induction run with
  | own own => exact second.prepend transitive own
  | answered own given _ ih => exact .answered own given (ih second)

end Interleaved

end Interleaving
