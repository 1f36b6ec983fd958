import Mathlib.Data.Finite.Prod
import Mathlib.Data.Fintype.Pigeonhole
import Mathlib.Logic.Relation
import Mathlib.Order.WellFounded

/-!
# Depth-first traversals that change the state they are pruned by

A traversal enters a node, which changes the state and names callees, and then
traverses these one after the other; whether a node is entered at all depends on the
state. It may recurse without end. `Returns` says that it does not; `Calls` relates
the calls that it makes. The two meet in a criterion: where the state can change only
finitely often and there are finitely many nodes, a traversal returns exactly when
none of its calls leads to itself again.
-/

namespace Traversal

universe u v

variable {State : Type u} {Node : Type v}

/-- A relation is followed through a list of nodes. -/
inductive Through (relation : State → Node → State → Prop) : State → List Node → State → Prop
  where
  | nil {state : State} : Through relation state [] state
  | cons {state middle after : State} {node : Node} {rest : List Node}
      (first : relation state node middle) (others : Through relation middle rest after) :
      Through relation state (node :: rest) after

/-- A traversal with a bound on the depth of the recursion; `enter` prunes by having no result. -/
def visit (enter : State → Node → Option (State × List Node)) : Nat → State → Node → Option State
  | 0, _, _ => none
  | fuel + 1, state, node =>
      match enter state node with
      | none => some state
      | some (entered, callees) => callees.foldlM (visit enter fuel) entered

variable (enter : State → Node → Option (State × List Node))

/-- The traversal returns with a state. -/
def Returns (state : State) (node : Node) (after : State) : Prop :=
  ∃ fuel, visit enter fuel state node = some after

variable {enter}

/-! ## Returning -/

namespace Through

variable {relation stronger : State → Node → State → Prop} {state after : State}

theorem mono {nodes : List Node} (path : Through stronger state nodes after)
    (weaken : ∀ state node after, stronger state node after → relation state node after) :
    Through relation state nodes after := by
  induction path with
  | nil => exact .nil
  | cons first _ ih => exact .cons (weaken _ _ _ first) ih

/-- Every step of a path comes after a path through the nodes before it. -/
theorem withPrefix {nodes : List Node} (path : Through relation state nodes after) :
    Through (fun middle node after => (∃ before rest, nodes = before ++ node :: rest ∧
      Through relation state before middle) ∧ relation middle node after) state nodes after := by
  induction path with
  | nil => exact .nil
  | cons first _ ih =>
      refine .cons ⟨⟨[], _, rfl, .nil⟩, first⟩ (ih.mono ?_)
      rintro _ _ _ ⟨⟨before, rest, rfl, early⟩, later⟩
      exact ⟨⟨_ :: before, rest, rfl, .cons first early⟩, later⟩

theorem preserves {Invariant : State → Prop} {nodes : List Node}
    (path : Through (fun middle _ after => Invariant middle → Invariant after) state nodes after)
    (start : Invariant state) : Invariant after := by
  induction path with
  | nil => exact start
  | cons first _ ih => exact ih (first start)

/-- A path that does not go through comes to a node where it stops. -/
theorem exists_stuck {nodes : List Node}
    (stuck : ¬∃ after, Through relation state nodes after) :
    ∃ before node rest middle, nodes = before ++ node :: rest ∧
      Through relation state before middle ∧ ¬∃ after, relation middle node after := by
  induction nodes generalizing state with
  | nil => exact absurd ⟨state, .nil⟩ stuck
  | cons node rest ih =>
      by_cases goes : ∃ middle, relation state node middle
      · rcases goes with ⟨middle, first⟩
        have stuckRest : ¬∃ after, Through relation middle rest after := by
          rintro ⟨after, others⟩
          exact stuck ⟨after, .cons first others⟩
        rcases ih stuckRest with ⟨before, at_, later, state', rfl, early, stops⟩
        exact ⟨node :: before, at_, later, state', rfl, .cons first early, stops⟩
      · exact ⟨[], node, rest, state, rfl, .nil, goes⟩

theorem unique {nodes : List Node} {other : State}
    (deterministic : ∀ state node first second, relation state node first →
      relation state node second → first = second)
    (path : Through relation state nodes after) (otherPath : Through relation state nodes other) :
    after = other := by
  induction path with
  | nil =>
      cases otherPath
      rfl
  | cons first _ ih =>
      rcases otherPath with _ | ⟨otherFirst, others⟩
      simp only [deterministic _ _ _ _ otherFirst first] at others
      exact ih others

theorem append_iff {before rest : List Node} :
    Through relation state (before ++ rest) after ↔
      ∃ middle, Through relation state before middle ∧ Through relation middle rest after := by
  induction before generalizing state with
  | nil =>
      constructor
      · intro path
        exact ⟨state, .nil, path⟩
      · rintro ⟨_, ⟨⟩, path⟩
        exact path
  | cons node before ih =>
      constructor
      · rintro ⟨⟩
        rename_i middle first others
        rcases ih.mp others with ⟨between, early, late⟩
        exact ⟨between, .cons first early, late⟩
      · rintro ⟨between, ⟨⟩, late⟩
        rename_i middle first early
        exact .cons first (ih.mpr ⟨between, early, late⟩)

end Through

theorem foldlM_eq_some_iff {visited : State → Node → Option State} {nodes : List Node}
    {state after : State} :
    nodes.foldlM visited state = some after ↔
      Through (fun state node after => visited state node = some after) state nodes after := by
  induction nodes generalizing state with
  | nil =>
      simp only [List.foldlM_nil, pure, Option.some.injEq]
      constructor
      · rintro rfl
        exact .nil
      · rintro ⟨⟩
        rfl
  | cons node rest ih =>
      simp only [List.foldlM_cons, Option.bind_eq_bind, Option.bind_eq_some_iff]
      constructor
      · rintro ⟨middle, first, others⟩
        exact .cons first (ih.mp others)
      · rintro ⟨⟩
        rename_i middle first others
        exact ⟨middle, first, ih.mpr others⟩

theorem visit_mono {fuel more : Nat} {state after : State} {node : Node}
    (returned : visit enter fuel state node = some after) (enough : fuel ≤ more) :
    visit enter more state node = some after := by
  induction fuel generalizing more state node after with
  | zero => cases returned
  | succ fuel ih =>
      rcases more with _ | more
      · omega
      · simp only [visit] at returned ⊢
        split at returned
        · exact returned
        · simp only [foldlM_eq_some_iff] at returned ⊢
          exact returned.mono fun _ _ _ earlier => ih earlier (by omega)

/-- A part of the state that alone decides what is entered is traversed in the same way. -/
theorem map_visit {Part : Type*} {part : State → Part}
    {enterPart : Part → Node → Option (Part × List Node)}
    (entering : ∀ state node, (enter state node).map (Prod.map part id) =
      enterPart (part state) node) (fuel : Nat) (state : State) (node : Node) :
    (visit enter fuel state node).map part = visit enterPart fuel (part state) node := by
  induction fuel generalizing state node with
  | zero => rfl
  | succ fuel ih =>
      have entered := entering state node
      cases enters : enter state node with
      | none =>
          rw [enters, Option.map_none] at entered
          simp only [visit, enters, ← entered, Option.map_some]
      | some result =>
          rcases result with ⟨next, callees⟩
          rw [enters, Option.map_some] at entered
          simp only [visit, enters, ← entered, Prod.map_apply, id_eq]
          clear enters entered
          induction callees generalizing next with
          | nil => rfl
          | cons callee rest ihRest =>
              have first := ih next callee
              simp only [List.foldlM_cons, Option.bind_eq_bind, ← first]
              cases visit enter fuel next callee with
              | none => rfl
              | some middle => exact ihRest middle

theorem through_returns_iff {nodes : List Node} {state after : State} :
    Through (Returns enter) state nodes after ↔
      ∃ fuel, nodes.foldlM (visit enter fuel) state = some after := by
  simp only [foldlM_eq_some_iff]
  constructor
  · intro path
    induction path with
    | nil => exact ⟨0, .nil⟩
    | cons first _ ih =>
        rcases first with ⟨fuel, first⟩
        rcases ih with ⟨more, others⟩
        refine ⟨max fuel more, .cons (visit_mono first (Nat.le_max_left _ _)) ?_⟩
        exact others.mono fun _ _ _ earlier => visit_mono earlier (Nat.le_max_right _ _)
  · rintro ⟨fuel, path⟩
    exact path.mono fun _ _ _ returned => ⟨fuel, returned⟩

theorem returns_of_pruned {state after : State} {node : Node}
    (pruned : enter state node = none) : Returns enter state node after ↔ after = state := by
  constructor
  · rintro ⟨_ | fuel, returned⟩
    · cases returned
    · simpa [visit, pruned, eq_comm] using returned
  · rintro rfl
    exact ⟨1, by simp [visit, pruned]⟩

theorem returns_of_entered {state entered after : State} {node : Node} {callees : List Node}
    (enters : enter state node = some (entered, callees)) :
    Returns enter state node after ↔ Through (Returns enter) entered callees after := by
  rw [through_returns_iff]
  constructor
  · rintro ⟨_ | fuel, returned⟩
    · cases returned
    · exact ⟨fuel, by simpa [visit, enters] using returned⟩
  · rintro ⟨fuel, returned⟩
    exact ⟨fuel + 1, by simpa [visit, enters] using returned⟩

theorem Returns.unique {state first second : State} {node : Node}
    (one : Returns enter state node first) (other : Returns enter state node second) :
    first = second := by
  rcases one with ⟨fuel, one⟩
  rcases other with ⟨more, other⟩
  have same := visit_mono one (Nat.le_max_left fuel more)
  simp only [visit_mono other (Nat.le_max_right fuel more)] at same
  exact (Option.some.inj same).symm

/-! ## Calls -/

/-- A call makes another one while it goes through its callees. -/
def Calls (enter : State → Node → Option (State × List Node)) (call next : State × Node) : Prop :=
  ∃ entered before rest, enter call.1 call.2 = some (entered, before ++ next.2 :: rest) ∧
    Through (Returns enter) entered before next.1

/-- The calls that are made from a call on, itself included. -/
def Reaches (enter : State → Node → Option (State × List Node)) :
    State × Node → State × Node → Prop :=
  Relation.ReflTransGen (Calls enter)

/-- A returning traversal, by cases on its calls; the callees of an entered node are all done. -/
theorem Returns.induction {motive : State → Node → State → Prop}
    (pruned : ∀ state node, enter state node = none → motive state node state)
    (entered : ∀ state node entered callees after, enter state node = some (entered, callees) →
      Through (fun middle callee after => Calls enter (state, node) (middle, callee) ∧
        Returns enter middle callee after ∧ motive middle callee after) entered callees after →
      motive state node after)
    {state after : State} {node : Node} (returned : Returns enter state node after) :
    motive state node after := by
  rcases returned with ⟨fuel, returned⟩
  induction fuel generalizing state node after with
  | zero => cases returned
  | succ fuel ih =>
      cases enters : enter state node with
      | none =>
          have same := (returns_of_pruned enters).mp ⟨fuel + 1, returned⟩
          rw [same]
          exact pruned state node enters
      | some result =>
          rcases result with ⟨next, callees⟩
          simp only [visit, enters, foldlM_eq_some_iff] at returned
          apply entered state node next callees after enters
          apply returned.withPrefix.mono
          rintro middle callee afterCallee ⟨⟨before, rest, rfl, early⟩, late⟩
          have done := early.mono fun _ _ _ earlier =>
            (⟨fuel, earlier⟩ : Returns enter _ _ _)
          exact ⟨⟨next, before, rest, enters, done⟩, ⟨fuel, late⟩, ih late⟩

/-- A state follows from another through entered nodes. -/
def Evolves (enter : State → Node → Option (State × List Node)) : State → State → Prop :=
  Relation.ReflTransGen fun state entered =>
    ∃ node callees, enter state node = some (entered, callees)

theorem Through.evolves {relation : State → Node → State → Prop} {state after : State}
    {nodes : List Node} (path : Through relation state nodes after)
    (each : ∀ state node after, relation state node after → Evolves enter state after) :
    Evolves enter state after := by
  induction path with
  | nil => exact .refl
  | cons first _ ih => exact (each _ _ _ first).trans ih

theorem Returns.evolves {state after : State} {node : Node}
    (returned : Returns enter state node after) : Evolves enter state after := by
  apply Returns.induction (motive := fun state _ after => Evolves enter state after) ?_ ?_ returned
  · intro state node _
    exact .refl
  · intro state node next callees after enters path
    have first : Evolves enter state next := .single ⟨node, callees, enters⟩
    apply first.trans
    exact path.evolves fun _ _ _ callee => callee.2.2

theorem Calls.evolves {call next : State × Node} (calls : Calls enter call next) :
    Evolves enter call.1 next.1 := by
  rcases calls with ⟨entered, before, rest, enters, path⟩
  have first : Evolves enter call.1 entered := .single ⟨call.2, _, enters⟩
  apply first.trans
  exact path.evolves fun _ _ _ callee => callee.evolves

theorem Reaches.evolves {call next : State × Node} (reaches : Reaches enter call next) :
    Evolves enter call.1 next.1 := by
  induction reaches with
  | refl => exact .refl
  | tail _ calls ih => exact ih.trans calls.evolves

/-- A call made by a returning one returns into a state that evolves to that one's end. -/
theorem Returns.of_calls {call next : State × Node} {after : State}
    (returned : Returns enter call.1 call.2 after) (calls : Calls enter call next) :
    ∃ middle, Returns enter next.1 next.2 middle ∧ Evolves enter middle after := by
  rcases calls with ⟨entered, before, rest, enters, path⟩
  rcases Through.append_iff.mp ((returns_of_entered enters).mp returned) with
    ⟨state, early, _ | ⟨first, others⟩⟩
  rw [path.unique (fun _ _ _ _ one other => one.unique other) early]
  exact ⟨_, first, others.evolves fun _ _ _ callee => callee.evolves⟩

theorem Returns.of_reaches {call next : State × Node} {after : State}
    (returned : Returns enter call.1 call.2 after) (reaches : Reaches enter call next) :
    ∃ middle, Returns enter next.1 next.2 middle ∧ Evolves enter middle after := by
  induction reaches with
  | refl => exact ⟨after, returned, .refl⟩
  | tail _ calls ih =>
      rcases ih with ⟨middle, returnedMiddle, evolves⟩
      rcases returnedMiddle.of_calls calls with ⟨earlier, returnedEarlier, evolvesEarlier⟩
      exact ⟨earlier, returnedEarlier, evolvesEarlier.trans evolves⟩

theorem Returns.exists_calls {call : State × Node} {entered after : State} {callees : List Node}
    (returned : Returns enter call.1 call.2 after)
    (enters : enter call.1 call.2 = some (entered, callees)) {node : Node}
    (callee : node ∈ callees) : ∃ state, Calls enter call (state, node) := by
  rcases List.append_of_mem callee with ⟨before, rest, rfl⟩
  rcases Through.append_iff.mp ((returns_of_entered enters).mp returned) with ⟨state, early, _⟩
  exact ⟨state, entered, before, rest, enters, early⟩

/-- What every entered node of a returning traversal preserves holds at its end. -/
theorem Returns.invariant {Invariant : State → Prop} {state after : State} {node : Node}
    (returned : Returns enter state node after)
    (preserved : ∀ call entered callees, Reaches enter (state, node) call → Invariant call.1 →
      enter call.1 call.2 = some (entered, callees) → Invariant entered)
    (start : Invariant state) : Invariant after := by
  apply Returns.induction (motive := fun state node after =>
    (∀ call entered callees, Reaches enter (state, node) call → Invariant call.1 →
      enter call.1 call.2 = some (entered, callees) → Invariant entered) →
        Invariant state → Invariant after) ?_ ?_ returned preserved start
  · intro state node _ _ start
    exact start
  · intro state node entered callees after enters path preserved start
    have enteredInvariant := preserved (state, node) entered callees .refl start enters
    have each : Through (fun middle _ after => Invariant middle → Invariant after)
        entered callees after :=
      path.mono fun middle callee after done => done.2.2 fun call next callees reaches =>
        preserved call next callees (reaches.head done.1)
    exact each.preserves enteredInvariant

/-! ## Sequences of traversals -/

/-- The calls that traversals of nodes one after the other make. -/
def MadeAmong (enter : State → Node → Option (State × List Node)) (state : State)
    (nodes : List Node) (call : State × Node) : Prop :=
  ∃ before node rest middle, nodes = before ++ node :: rest ∧
    Through (Returns enter) state before middle ∧ Reaches enter (middle, node) call

section Sequence

variable {state after : State} {nodes : List Node}
  (path : Through (Returns enter) state nodes after)

include path

theorem Through.of_madeAmong {call : State × Node} (made : MadeAmong enter state nodes call) :
    ∃ middle, Returns enter call.1 call.2 middle ∧ Evolves enter middle after := by
  rcases made with ⟨before, node, rest, middle, rfl, early, reaches⟩
  rcases append_iff.mp path with ⟨earlier, toEarlier, _ | ⟨first, others⟩⟩
  simp only [toEarlier.unique (fun _ _ _ _ one other => one.unique other) early] at first
  rcases Returns.of_reaches first reaches with ⟨end_, returned, evolves⟩
  have later := others.evolves fun _ _ _ callee => callee.evolves
  exact ⟨end_, returned, evolves.trans later⟩

/-- What every entered node of a sequence of traversals preserves holds at its end. -/
theorem Through.invariant {Invariant : State → Prop}
    (preserved : ∀ call entered callees, MadeAmong enter state nodes call → Invariant call.1 →
      enter call.1 call.2 = some (entered, callees) → Invariant entered)
    (start : Invariant state) : Invariant after := by
  have each : Through (fun middle _ after => Invariant middle → Invariant after)
      state nodes after := by
    apply path.withPrefix.mono
    rintro middle node after ⟨⟨before, rest, split, early⟩, returned⟩ holds
    apply returned.invariant ?_ holds
    intro call entered callees reaches
    exact preserved call entered callees ⟨before, node, rest, middle, split, early, reaches⟩
  exact each.preserves start

end Sequence

theorem madeAmong_singleton {state : State} {node : Node} {call : State × Node} :
    MadeAmong enter state [node] call ↔ Reaches enter (state, node) call := by
  constructor
  · rintro ⟨before, first, rest, middle, split, early, reaches⟩
    rcases List.append_eq_singleton_iff.mp split.symm with ⟨rfl, only⟩ | ⟨_, none⟩
    · cases early
      rw [← (List.cons.inj only).1]
      exact reaches
    · cases none
  · intro reaches
    exact ⟨[], node, [], state, rfl, .nil, reaches⟩

theorem MadeAmong.tail {state : State} {nodes : List Node} {call next : State × Node}
    (made : MadeAmong enter state nodes call) (calls : Calls enter call next) :
    MadeAmong enter state nodes next := by
  rcases made with ⟨before, node, rest, middle, split, early, reaches⟩
  exact ⟨before, node, rest, middle, split, early, reaches.tail calls⟩

theorem MadeAmong.evolves {state : State} {nodes : List Node} {call : State × Node}
    (made : MadeAmong enter state nodes call) : Evolves enter state call.1 := by
  rcases made with ⟨before, node, rest, middle, _, early, reaches⟩
  have first := early.evolves fun _ _ _ callee => callee.evolves
  exact first.trans reaches.evolves

/-! ## Termination -/

/-- A call that does not return makes a call that does not. -/
theorem exists_calls_of_not_returns {call : State × Node}
    (stuck : ¬∃ after, Returns enter call.1 call.2 after) :
    ∃ next, Calls enter call next ∧ ¬∃ after, Returns enter next.1 next.2 after := by
  cases enters : enter call.1 call.2 with
  | none => exact absurd ⟨call.1, (returns_of_pruned enters).mpr rfl⟩ stuck
  | some result =>
      rcases result with ⟨entered, callees⟩
      have stuckAmong : ¬∃ after, Through (Returns enter) entered callees after := by
        rintro ⟨after, path⟩
        exact stuck ⟨after, (returns_of_entered enters).mpr path⟩
      rcases Through.exists_stuck stuckAmong with ⟨before, node, rest, state, rfl, early, stuckNode⟩
      exact ⟨(state, node), ⟨entered, before, rest, enters, early⟩, stuckNode⟩

/-- A call made by one that returns with some fuel returns with less. -/
theorem visit_of_calls {call next : State × Node} {after : State} {fuel : Nat}
    (returned : visit enter fuel call.1 call.2 = some after) (calls : Calls enter call next) :
    ∃ less < fuel, ∃ middle, visit enter less next.1 next.2 = some middle := by
  rcases calls with ⟨entered, before, rest, enters, path⟩
  rcases fuel with _ | fuel
  · cases returned
  · simp only [visit, enters, foldlM_eq_some_iff] at returned
    rcases Through.append_iff.mp returned with ⟨state, early, _ | ⟨first, others⟩⟩
    have same := path.unique (fun _ _ _ _ one other => one.unique other)
      (early.mono fun _ _ _ earlier => (⟨fuel, earlier⟩ : Returns enter _ _ _))
    subst same
    exact ⟨fuel, Nat.lt_succ_self fuel, _, first⟩

theorem Returns.not_cycle {call : State × Node} {after : State}
    (returned : Returns enter call.1 call.2 after) :
    ¬Relation.TransGen (Calls enter) call call := by
  intro cycle
  have descends : ∀ next, Relation.TransGen (Calls enter) call next → ∀ fuel,
      (∃ middle, visit enter fuel call.1 call.2 = some middle) →
        ∃ less < fuel, ∃ middle, visit enter less next.1 next.2 = some middle := by
    intro next path fuel returns
    rcases returns with ⟨middle, returns⟩
    induction path with
    | single calls => exact visit_of_calls returns calls
    | tail _ calls ih =>
        rcases ih with ⟨less, bound, middle, returnsEarlier⟩
        rcases visit_of_calls returnsEarlier calls with ⟨lesser, lower, result⟩
        exact ⟨lesser, by omega, result⟩
  have noFuel : ∀ fuel, ¬∃ middle, visit enter fuel call.1 call.2 = some middle := by
    intro fuel
    induction fuel using Nat.strong_induction_on with
    | _ fuel ih =>
        intro returns
        rcases descends call cycle fuel returns with ⟨less, bound, earlier⟩
        exact ih less bound earlier
  rcases returned with ⟨fuel, returned⟩
  exact noFuel fuel ⟨after, returned⟩

section Criterion

variable {state : State} {node : Node}

theorem evolves_cases {weight : State → Nat}
    (grows : ∀ state node entered callees, enter state node = some (entered, callees) →
      entered = state ∨ weight state < weight entered) {earlier later : State}
    (evolves : Evolves enter earlier later) : later = earlier ∨ weight earlier < weight later := by
  induction evolves with
  | refl => exact Or.inl rfl
  | tail _ step ih =>
      rcases step with ⟨node, callees, enters⟩
      rcases grows _ _ _ _ enters with rfl | grown
      · exact ih
      · right
        rcases ih with rfl | before
        · exact grown
        · exact before.trans grown

/-- A traversal returns if every node that it enters makes the state heavier, up to a bound. -/
theorem exists_returns_of_grows (weight : State → Nat) (bound : Nat)
    (grows : ∀ state node entered callees, enter state node = some (entered, callees) →
      weight state < weight entered)
    (bounded : ∀ later, Evolves enter state later → weight later ≤ bound) :
    ∃ after, Returns enter state node after := by
  induction room : bound - weight state using Nat.strong_induction_on generalizing state node with
  | _ _ ih =>
      by_contra stuck
      rcases @exists_calls_of_not_returns _ _ enter (state, node) stuck with
        ⟨next, calls, stuckNext⟩
      have evolves := calls.evolves
      have heavier : weight state < weight next.1 := by
        rcases calls with ⟨entered, before, rest, enters, path⟩
        have first := grows _ _ _ _ enters
        have later := path.evolves fun _ _ _ callee => callee.evolves
        rcases evolves_cases (fun _ _ _ _ entering => Or.inr (grows _ _ _ _ entering)) later with
          same | more
        · rw [same]
          exact first
        · exact first.trans more
      have fits := bounded next.1 evolves
      apply stuckNext
      apply ih (bound - weight next.1) ?_ ?_ rfl
      · omega
      · intro later further
        exact bounded later (evolves.trans further)

/-- Below a bound, a traversal that does not return comes to a node again at the same weight. -/
theorem exists_repeated_of_not_returns [Finite Node] (weight : State → Nat) (bound : Nat)
    (bounded : ∀ later, Evolves enter state later → weight later ≤ bound)
    (stuck : ¬∃ after, Returns enter state node after) :
    ∃ call next, Reaches enter (state, node) call ∧ Relation.TransGen (Calls enter) call next ∧
      next.2 = call.2 ∧ weight next.1 = weight call.1 := by
  -- Calls that do not return, each made by the one before, in a finite space of nodes.
  let Stuck := { call : State × Node // ¬∃ after, Returns enter call.1 call.2 after }
  have next : ∀ call : Stuck, ∃ next : Stuck, Calls enter call.1 next.1 := by
    rintro ⟨call, stuckCall⟩
    rcases exists_calls_of_not_returns stuckCall with ⟨following, calls, stuckNext⟩
    exact ⟨⟨following, stuckNext⟩, calls⟩
  choose successor calls using next
  let chain : Nat → Stuck := fun i => successor^[i] ⟨(state, node), stuck⟩
  have chainCalls : ∀ i, Calls enter (chain i).1 (chain (i + 1)).1 := by
    intro i
    have step : chain (i + 1) = successor (chain i) := Function.iterate_succ_apply' successor i _
    rw [step]
    exact calls (chain i)
  have reaches : ∀ i, Reaches enter (state, node) (chain i).1 := by
    intro i
    induction i with
    | zero => exact .refl
    | succ i ih => exact ih.tail (chainCalls i)
  have later : ∀ i k, Relation.TransGen (Calls enter) (chain i).1 (chain (i + k + 1)).1 := by
    intro i k
    induction k with
    | zero => exact .single (chainCalls i)
    | succ k ih => exact ih.tail (chainCalls (i + k + 1))
  have weightBound : ∀ i, weight (chain i).1.1 < bound + 1 :=
    fun i => Nat.lt_succ_of_le (bounded _ (reaches i).evolves)
  rcases Finite.exists_ne_map_eq_of_infinite fun i : Nat =>
    ((⟨weight (chain i).1.1, weightBound i⟩ : Fin (bound + 1)), (chain i).1.2) with
    ⟨i, j, different, same⟩
  simp only [Prod.mk.injEq, Fin.mk.injEq] at same
  rcases Nat.lt_or_gt_of_ne different with before | after
  · rcases Nat.exists_eq_add_of_lt before with ⟨k, rfl⟩
    exact ⟨_, _, reaches i, later i k, same.2.symm, same.1.symm⟩
  · rcases Nat.exists_eq_add_of_lt after with ⟨k, rfl⟩
    exact ⟨_, _, reaches j, later j k, same.2, same.1⟩

/--
Where every change of the state makes it heavier, up to a bound, a traversal returns
exactly when none of the calls made from it leads to itself again.
-/
theorem exists_returns_iff [Finite Node] (weight : State → Nat) (bound : Nat)
    (grows : ∀ state node entered callees, enter state node = some (entered, callees) →
      entered = state ∨ weight state < weight entered)
    (bounded : ∀ later, Evolves enter state later → weight later ≤ bound) :
    (∃ after, Returns enter state node after) ↔
      ∀ call, Reaches enter (state, node) call → ¬Relation.TransGen (Calls enter) call call := by
  constructor
  · rintro ⟨after, returned⟩ call reaches
    rcases returned.of_reaches reaches with ⟨middle, returnedCall, _⟩
    exact returnedCall.not_cycle
  · intro acyclic
    by_contra stuck
    rcases exists_repeated_of_not_returns weight bound bounded stuck with
      ⟨call, next, reaches, path, sameNode, sameWeight⟩
    have sameState : next.1 = call.1 := by
      rcases evolves_cases grows (Reaches.evolves path.to_reflTransGen) with unchanged | heavier
      · exact unchanged
      · omega
    have sameCall : next = call := Prod.ext sameState sameNode
    rw [sameCall] at path
    exact acyclic call reaches path

end Criterion

/-! ## Endless paths -/

theorem not_acc_of_cycle {α : Type*} {relation : α → α → Prop} {node : α}
    (cycle : relation node node) : ¬Acc relation node := by
  intro acc
  induction acc with
  | intro node _ ih => exact ih node cycle cycle

/-- A cycle that a relation leads to can be followed without end. -/
theorem exists_path_of_cycle {α : Type*} {relation : α → α → Prop} {start node : α}
    (leads : Relation.ReflTransGen relation start node)
    (cycle : Relation.TransGen relation node node) :
    ∃ path : Nat → α, path 0 = start ∧ ∀ k, relation (path k) (path (k + 1)) := by
  refine (not_acc_iff_exists_descending_chain (r := Function.swap relation)).mp ?_
  intro acc
  have atNode : Acc (Function.swap relation) node := by
    clear cycle
    induction leads with
    | refl => exact acc
    | tail _ follows ih => exact ih.inv follows
  exact not_acc_of_cycle (Relation.transGen_swap.mpr cycle) atNode.transGen

/--
A traversal that gets onto a path, in a state that belongs to the place there, is kept on it:
it enters the nodes of the path, and none besides.
-/
structure Trap (enter : State → Node → Option (State × List Node)) (path : Nat → Node)
    (Within : Nat → State → Prop) : Prop where
  later : ∀ {k state}, Within k state → Within (k + 1) state
  enters : ∀ {k state}, Within k state → ∃ entered callees,
    enter state (path k) = some (entered, callees) ∧ path (k + 1) ∈ callees
  keeps : ∀ {j k state entered callees}, j ≤ k → Within (k + 1) state →
    enter state (path j) = some (entered, callees) → Within (k + 1) entered
  prunes : ∀ {j k state state' entered callees callee}, enter state (path j) =
    some (entered, callees) → callee ∈ callees → (∀ i, callee ≠ path i) →
      Within k state' → enter state' callee = none

namespace Trap

variable {path : Nat → Node} {Within : Nat → State → Prop} {state : State}
  (trap : Trap enter path Within)

include trap

theorem within_of_le {j k : Nat} (order : j ≤ k) (within : Within j state) : Within k state := by
  induction order with
  | refl => exact within
  | step _ ih => exact trap.later ih

/-- Going through callees of a node on the path keeps the state in its place. -/
theorem within_of_foldlM {fuel j k : Nat} {before entered middle after : State}
    {callees nodes : List Node}
    (each : ∀ i state after, Within (k + 1) state → visit enter fuel state (path i) = some after →
      Within (k + 1) after)
    (enters : enter before (path j) = some (entered, callees))
    (among : ∀ node ∈ nodes, node ∈ callees) (within : Within (k + 1) middle)
    (gone : nodes.foldlM (visit enter fuel) middle = some after) : Within (k + 1) after := by
  induction nodes generalizing middle with
  | nil =>
      rcases Option.some.inj gone with rfl
      exact within
  | cons node rest ih =>
      simp only [List.foldlM_cons, Option.bind_eq_bind, Option.bind_eq_some_iff] at gone
      rcases gone with ⟨next, first, others⟩
      have amongRest : ∀ node ∈ rest, node ∈ callees :=
        fun node present => among node (List.mem_cons_of_mem _ present)
      apply ih amongRest ?_ others
      by_cases onPath : ∃ i, node = path i
      · rcases onPath with ⟨i, rfl⟩
        exact each i middle next within first
      · have pruned := trap.prunes enters (among node List.mem_cons_self)
          (not_exists.mp onPath) within
        have same := (returns_of_pruned pruned).mp ⟨fuel, first⟩
        rwa [same]

/-- At no depth the path comes to an end, and a call that returns leaves the state in its place. -/
theorem visit_eq_none (fuel : Nat) :
    (∀ k state, Within k state → visit enter fuel state (path k) = none) ∧
      ∀ k j state after, Within (k + 1) state → visit enter fuel state (path j) = some after →
        Within (k + 1) after := by
  induction fuel with
  | zero => exact ⟨fun _ _ _ => rfl, fun _ _ _ _ _ returned => by cases returned⟩
  | succ fuel ih =>
      have endless : ∀ k state, Within k state →
          visit enter (fuel + 1) state (path k) = none := by
        intro k state within
        rcases trap.enters within with ⟨entered, callees, enters, next⟩
        rcases List.append_of_mem next with ⟨before, rest, rfl⟩
        have enteredWithin := trap.keeps (Nat.le_refl k) (trap.later within) enters
        simp only [visit, enters, List.foldlM_append, List.foldlM_cons]
        cases gone : before.foldlM (visit enter fuel) entered with
        | none => rfl
        | some middle =>
            have among : ∀ node ∈ before, node ∈ before ++ path (k + 1) :: rest :=
              fun _ present => List.mem_append_left _ present
            have inside := trap.within_of_foldlM (ih.2 k) enters among enteredWithin gone
            simp [ih.1 (k + 1) middle inside]
      refine ⟨endless, ?_⟩
      intro k j state after within returned
      rcases Nat.lt_or_ge k j with ahead | behind
      · rw [endless j state (trap.within_of_le ahead within)] at returned
        cases returned
      · simp only [visit] at returned
        split at returned
        · rcases Option.some.inj returned with rfl
          exact within
        · rename_i entered callees enters
          have enteredWithin := trap.keeps behind within enters
          exact trap.within_of_foldlM (ih.2 k) enters (fun _ present => present) enteredWithin
            returned

theorem not_returns (within : Within 0 state) : ¬∃ after, Returns enter state (path 0) after := by
  rintro ⟨after, fuel, returned⟩
  rw [(trap.visit_eq_none fuel).1 0 state within] at returned
  cases returned

end Trap

end Traversal
