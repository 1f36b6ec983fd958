import Mathlib.Data.Set.Card
import RustDbg.Library.Traversal

/-!
# Traversals that mark what they enter

A traversal that enters a node unless its state marks it already, and marks it then, marks
exactly the nodes that can be reached from those it is started at. In which order these are
given makes no difference. It is enough that the states and nodes that matter behave so:
`Within` and `Valid` say which these are.
-/

namespace Traversal

universe u v

variable {State : Type u} {Node : Type v}

/-- A node can be reached from one of some nodes through callees. -/
def Reachable (callees : Node → List Node) (starts : List Node) (node : Node) : Prop :=
  ∃ start ∈ starts, Relation.ReflTransGen (fun caller callee => callee ∈ callees caller) start node

/-- The traversal enters what is not marked, and marks it. -/
structure Marking (enter : State → Node → Option (State × List Node))
    (callees : Node → List Node) (Within : Node → Prop) (Valid : State → Prop)
    (marked : State → Node → Prop) : Prop where
  within : ∀ node callee, Within node → callee ∈ callees node → Within callee
  pruned : ∀ state node, Valid state → Within node →
    (enter state node = none ↔ marked state node)
  entered : ∀ state node entered calls, Valid state → Within node →
    enter state node = some (entered, calls) → Valid entered ∧ calls = callees node ∧
      ∀ other, marked entered other ↔ other = node ∨ marked state other

/-- What going through some nodes does to the marks. -/
structure Explores (callees : Node → List Node) (Valid : State → Prop)
    (marked : State → Node → Prop) (state : State) (nodes : List Node) (after : State) : Prop
    where
  valid : Valid after
  kept : ∀ other, marked state other → marked after other
  visited : ∀ node ∈ nodes, marked after node
  reached : ∀ other, marked after other → marked state other ∨ Reachable callees nodes other
  /-- The callees of what is newly marked are marked as well. -/
  closed : ∀ other, marked after other → ¬marked state other →
    ∀ callee ∈ callees other, marked after callee

variable {callees : Node → List Node} {Within : Node → Prop} {Valid : State → Prop}
  {marked : State → Node → Prop} {state middle after : State} {node other : Node}
  {nodes rest : List Node}

/-! ## Reachable nodes -/

theorem Reachable.of_mem (mem : node ∈ nodes) : Reachable callees nodes node :=
  ⟨node, mem, .refl⟩

theorem Reachable.mono {more : List Node} (reachable : Reachable callees nodes other)
    (subset : ∀ node ∈ nodes, node ∈ more) : Reachable callees more other := by
  rcases reachable with ⟨start, mem, path⟩
  exact ⟨start, subset start mem, path⟩

theorem Reachable.callee (reachable : Reachable callees nodes node)
    (mem : other ∈ callees node) : Reachable callees nodes other := by
  rcases reachable with ⟨start, present, path⟩
  exact ⟨start, present, path.tail mem⟩

/-- What the callees of a node reach is reached by the node. -/
theorem Reachable.of_callees (reachable : Reachable callees (callees node) other) :
    Reachable callees [node] other := by
  rcases reachable with ⟨start, mem, path⟩
  exact ⟨node, List.mem_singleton_self node, path.head mem⟩

/-- A set that is closed under callees holds what its members reach. -/
theorem Reachable.of_closed {Holds : Node → Prop}
    (closed : ∀ node, Holds node → ∀ callee ∈ callees node, Holds callee)
    (starts : ∀ node ∈ nodes, Holds node) (reachable : Reachable callees nodes other) :
    Holds other := by
  rcases reachable with ⟨start, mem, path⟩
  induction path with
  | refl => exact starts start mem
  | tail _ mem ih => exact closed _ ih _ mem

/-! ## What a traversal looks at -/

section Agreement

variable {enter plain : State → Node → Option (State × List Node)}
  (closed : ∀ state node entered calls, Within node → enter state node = some (entered, calls) →
    ∀ callee ∈ calls, Within callee)

include closed

/-- Traversals that agree on the nodes within a closed set return in the same state. -/
theorem Returns.congr (agree : ∀ state node, Within node → plain state node = enter state node)
    (returned : Returns enter state node after) (within : Within node) :
    Returns plain state node after := by
  apply Returns.induction (motive := fun state node after => Within node →
    Returns plain state node after) ?_ ?_ returned within
  · intro state node pruned within
    apply (returns_of_pruned _).mpr rfl
    rw [agree state node within, pruned]
  · intro state node entered calls after enters path within
    have plainEnters := (agree state node within).trans enters
    apply (returns_of_entered plainEnters).mpr
    apply path.withPrefix.mono
    rintro middle callee end_ ⟨⟨before, rest, calls_eq, -⟩, -, -, agrees⟩
    apply agrees
    apply closed state node entered calls within enters
    simp [calls_eq]

theorem Through.returns_congr
    (agree : ∀ state node, Within node → plain state node = enter state node)
    (path : Through (Returns enter) state nodes after) (within : ∀ node ∈ nodes, Within node) :
    Through (Returns plain) state nodes after := by
  apply path.withPrefix.mono
  rintro middle node end_ ⟨⟨before, rest, nodes_eq, -⟩, returned⟩
  apply returned.congr closed agree
  apply within
  simp [nodes_eq]

/-- All calls that are made are for nodes within the set. -/
theorem MadeAmong.within {call : State × Node} (made : MadeAmong enter state nodes call)
    (within : ∀ node ∈ nodes, Within node) : Within call.2 := by
  rcases made with ⟨before, node, rest, middle, rfl, -, reaches⟩
  induction reaches with
  | refl => exact within node (by simp)
  | @tail caller _ _ calls ih =>
      rcases calls with ⟨entered, earlier, later, enters, -⟩
      apply closed caller.1 caller.2 entered _ ih enters
      simp

end Agreement

/-! ## Marks -/

namespace Explores

theorem nil (valid : Valid state) : Explores callees Valid marked state [] state where
  valid := valid
  kept _ mark := mark
  visited := by simp
  reached _ mark := Or.inl mark
  closed _ mark fresh := absurd mark fresh

/-- A node that is marked already is passed over. -/
theorem pruned (valid : Valid state) (mark : marked state node) :
    Explores callees Valid marked state [node] state where
  valid := valid
  kept _ mark := mark
  visited := by
    intro node mem
    rwa [List.mem_singleton.mp mem]
  reached _ mark := Or.inl mark
  closed _ mark fresh := absurd mark fresh

/-- A node that is entered is marked before its callees are gone through. -/
theorem entered {entered : State}
    (marks : ∀ other, marked entered other ↔ other = node ∨ marked state other)
    (explores : Explores callees Valid marked entered (callees node) after) :
    Explores callees Valid marked state [node] after where
  valid := explores.valid
  kept := by
    intro other mark
    exact explores.kept other ((marks other).mpr (Or.inr mark))
  visited := by
    intro other mem
    rw [List.mem_singleton.mp mem]
    exact explores.kept node ((marks node).mpr (Or.inl rfl))
  reached := by
    intro other mark
    rcases explores.reached other mark with early | reachable
    · rcases (marks other).mp early with rfl | before
      · exact Or.inr (.of_mem (List.mem_singleton_self other))
      · exact Or.inl before
    · exact Or.inr reachable.of_callees
  closed := by
    intro other mark fresh callee mem
    by_cases early : marked entered other
    · rcases (marks other).mp early with rfl | before
      · exact explores.visited callee mem
      · exact absurd before fresh
    · exact explores.closed other mark early callee mem

theorem cons (first : Explores callees Valid marked state [node] middle)
    (others : Explores callees Valid marked middle rest after) :
    Explores callees Valid marked state (node :: rest) after where
  valid := others.valid
  kept other mark := others.kept other (first.kept other mark)
  visited := by
    intro other mem
    rcases List.mem_cons.mp mem with rfl | later
    · exact others.kept other (first.visited other (List.mem_singleton_self other))
    · exact others.visited other later
  reached := by
    intro other mark
    rcases others.reached other mark with early | reachable
    · rcases first.reached other early with before | reachable
      · exact Or.inl before
      · exact Or.inr (reachable.mono (by simp))
    · exact Or.inr (reachable.mono fun _ mem => List.mem_cons_of_mem _ mem)
  closed := by
    intro other mark fresh callee mem
    by_cases early : marked middle other
    · exact others.kept callee (first.closed other early fresh callee mem)
    · exact others.closed other mark early callee mem

/-- From a state without marks exactly what can be reached is marked. -/
theorem marked_iff (explores : Explores callees Valid marked state nodes after)
    (unmarked : ∀ node, ¬marked state node) :
    marked after other ↔ Reachable callees nodes other := by
  constructor
  · intro mark
    rcases explores.reached other mark with before | reachable
    · exact absurd before (unmarked other)
    · exact reachable
  · apply Reachable.of_closed ?_ explores.visited
    intro node mark
    exact explores.closed node mark (unmarked node)

end Explores

theorem Explores.of_through
    (path : Through (fun state node after => Valid state → Within node →
      Explores callees Valid marked state [node] after) state nodes after)
    (valid : Valid state) (within : ∀ node ∈ nodes, Within node) :
    Explores callees Valid marked state nodes after := by
  induction path with
  | nil => exact .nil valid
  | cons first _ ih =>
      have explored := first valid (within _ List.mem_cons_self)
      exact .cons explored (ih explored.valid fun _ mem => within _ (List.mem_cons_of_mem _ mem))

namespace Marking

variable {enter : State → Node → Option (State × List Node)}
  (marking : Marking enter callees Within Valid marked)

include marking

theorem explores_of_returns (returned : Returns enter state node after) (valid : Valid state)
    (within : Within node) : Explores callees Valid marked state [node] after := by
  refine Returns.induction (motive := fun state node after => Valid state → Within node →
    Explores callees Valid marked state [node] after) ?_ ?_ returned valid within
  · intro state node pruned valid within
    exact .pruned valid ((marking.pruned state node valid within).mp pruned)
  · intro state node entered calls after enters path valid within
    rcases marking.entered state node entered calls valid within enters with
      ⟨enteredValid, rfl, marks⟩
    apply Explores.entered marks
    apply Explores.of_through (path.mono fun _ _ _ call => call.2.2) enteredValid
    exact fun callee mem => marking.within node callee within mem

/-- What goes through some nodes explores them. -/
theorem explores (path : Through (Returns enter) state nodes after) (valid : Valid state)
    (within : ∀ node ∈ nodes, Within node) : Explores callees Valid marked state nodes after :=
  Explores.of_through
    (path.mono fun _ _ _ returned => marking.explores_of_returns returned) valid within

/-! ## Termination -/

section Finite

variable [Finite Node]

theorem exists_through_of_returns {count : Nat}
    (each : ∀ state node, Valid state → Within node →
      {other | ¬marked state other}.ncard ≤ count → ∃ after, Returns enter state node after)
    (valid : Valid state) (within : ∀ node ∈ nodes, Within node)
    (few : {other | ¬marked state other}.ncard ≤ count) :
    ∃ after, Through (Returns enter) state nodes after := by
  induction nodes generalizing state with
  | nil => exact ⟨state, .nil⟩
  | cons node rest ih =>
      rcases each state node valid (within node List.mem_cons_self) few with ⟨middle, returned⟩
      have explored := marking.explores_of_returns returned valid (within node List.mem_cons_self)
      have fewer : {other | ¬marked middle other}.ncard ≤ {other | ¬marked state other}.ncard := by
        refine Set.ncard_le_ncard ?_ (Set.toFinite _)
        exact fun other fresh mark => fresh (explored.kept other mark)
      rcases ih explored.valid (fun other mem => within other (List.mem_cons_of_mem _ mem))
        (fewer.trans few) with ⟨after, others⟩
      exact ⟨after, .cons returned others⟩

/-- Where there are finitely many nodes, the traversal returns. -/
theorem exists_returns (valid : Valid state) (within : Within node) :
    ∃ after, Returns enter state node after := by
  induction size_eq : {other | ¬marked state other}.ncard using Nat.strong_induction_on
    generalizing state node with
  | _ count ih =>
      cases enters : enter state node with
      | none => exact ⟨state, (returns_of_pruned enters).mpr rfl⟩
      | some result =>
          rcases result with ⟨entered, calls⟩
          rcases marking.entered state node entered calls valid within enters with
            ⟨enteredValid, rfl, marks⟩
          have fresh : ¬marked state node := by
            intro mark
            rw [(marking.pruned state node valid within).mpr mark] at enters
            cases enters
          have fewer : {other | ¬marked entered other}.ncard < count := by
            rw [← size_eq]
            refine Set.ncard_lt_ncard ⟨?_, ?_⟩ (Set.toFinite _)
            · exact fun other unmarked mark => unmarked ((marks other).mpr (Or.inr mark))
            · intro subset
              exact subset fresh ((marks node).mpr (Or.inl rfl))
          have each : ∀ state node, Valid state → Within node →
              {other | ¬marked state other}.ncard ≤ {other | ¬marked entered other}.ncard →
                ∃ after, Returns enter state node after :=
            fun _ _ valid within few => ih _ (Nat.lt_of_le_of_lt few fewer) valid within rfl
          rcases marking.exists_through_of_returns each enteredValid
            (fun callee mem => marking.within node callee within mem) (Nat.le_refl _)
            with ⟨after, path⟩
          exact ⟨after, (returns_of_entered enters).mpr path⟩

theorem exists_through (valid : Valid state) (within : ∀ node ∈ nodes, Within node) :
    ∃ after, Through (Returns enter) state nodes after :=
  marking.exists_through_of_returns (fun _ _ valid within _ => marking.exists_returns valid within)
    valid within (Nat.le_refl _)

end Finite

end Marking

end Traversal
