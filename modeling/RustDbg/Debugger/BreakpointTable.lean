import RustDbg.Breakpoint.Identity
import RustDbg.Debugger.FreeRun
import RustDbg.Debugger.Operations

/-!
# The breakpoint table over a run

No command removes, moves or relocates a breakpoint, so that a pointer to one stays good for
as long as the debugger lives. Commands create breakpoints only to step over calls, one each.
-/

namespace RustDbg

def Command.isStepOver : Command → Bool
  | .stepOver _ => true
  | .step _ | .resume => false

namespace Session

open BreakpointState

/-- Each table has the same breakpoints at the same places, or the second one is emptied. -/
structure SameBreakpoints (before after : Session) : Prop where
  regular : identities after.breakpoints = identities before.breakpoints
  transient : identities after.transientBreakpoints = identities before.transientBreakpoints ∨
    after.transientBreakpoints = []

namespace SameBreakpoints

variable {first second third : Session}

theorem refl (session : Session) : SameBreakpoints session session := ⟨rfl, Or.inl rfl⟩

theorem trans (left : SameBreakpoints first second) (right : SameBreakpoints second third) :
    SameBreakpoints first third where
  regular := right.regular.trans left.regular
  transient := by
    rcases right.transient with same | empty
    · rcases left.transient with earlier | empty
      · exact Or.inl (same.trans earlier)
      · right
        apply List.map_eq_nil_iff.mp
        rw [identities, empty] at same
        exact same
    · exact Or.inr empty

theorem of_eq (breakpoints : second.breakpoints = first.breakpoints)
    (transient : second.transientBreakpoints = first.transientBreakpoints) :
    SameBreakpoints first second :=
  ⟨congrArg identities breakpoints, Or.inl (congrArg identities transient)⟩

theorem stepBackThread (session : Session) (index : Nat) :
    SameBreakpoints session (session.stepBackThread index) := by
  simp only [Session.stepBackThread]
  split
  · exact refl session
  · split
    · exact refl session
    · exact of_eq rfl rfl

theorem machResumeThread (session : Session) (index : Nat) :
    SameBreakpoints session (session.machResumeThread index) := by
  simp only [Session.machResumeThread]
  split <;> exact of_eq rfl rfl

theorem operation (operation : Operation first second) : SameBreakpoints first second := by
  cases operation with
  | access => exact of_eq rfl rfl
  | enable ref flag =>
      rcases identities_enable first.breakpointState first.nextAccess.1 ref flag with
        ⟨regular, transient⟩
      exact ⟨regular, Or.inl transient⟩
  | deleteTransientBreakpoints deleted =>
      simp only [Session.deleteTransientBreakpoints, Option.ite_none_left_eq_some,
        Option.some.injEq] at deleted
      rcases deleted with ⟨-, rfl⟩
      exact ⟨rfl, Or.inr rfl⟩
  | enableSingleStep index flag => exact of_eq rfl rfl
  | stepBackThread index => exact stepBackThread first index
  | machSuspendAllThreads => exact of_eq rfl rfl
  | machResumeThread index => exact machResumeThread first index
  | machResumeTask => exact of_eq rfl rfl
  | machResumeThreadsAndTask => exact of_eq rfl rfl

theorem wait {state : MDBProcessRunState}
    (returned : first.internalWait SIG_TRAP = some (state, second)) :
    SameBreakpoints first second := by
  have same := SameSettings.internalWait returned
  exact of_eq same.breakpoints same.transientBreakpoints

theorem operates (operates : Operates first second) : SameBreakpoints first second := by
  apply operates.preserves (SameBreakpoints first) ?_ ?_ (refl first)
  · intro before after operation same
    exact same.trans (.operation operation)
  · intro before state after returned same
    exact same.trans (.wait returned)

end SameBreakpoints

/-- Behind the breakpoints there were, the table has some new ones without a callback. -/
structure Extends (before after : Session) (created : Nat) : Prop where
  regular : ∃ added, identities after.breakpoints = identities before.breakpoints ++ added ∧
    added.length ≤ created ∧ ∀ identity ∈ added, identity.2 = none

variable {ud : Udis86} {session next last : Session} {command : Command} {created more : Nat}

theorem Extends.trans (left : Extends session next created) (right : Extends next last more) :
    Extends session last (created + more) := by
  rcases left.regular with ⟨added, left_eq, few, plain⟩
  rcases right.regular with ⟨later, right_eq, laterFew, laterPlain⟩
  refine ⟨added ++ later, ?_, ?_, ?_⟩
  · rw [right_eq, left_eq, List.append_assoc]
  · rw [List.length_append]
    omega
  · intro identity mem
    rcases List.mem_append.mp mem with earlier | latest
    · exact plain identity earlier
    · exact laterPlain identity latest

theorem SameBreakpoints.extends (same : SameBreakpoints session next) (created : Nat) :
    Extends session next created := by
  refine ⟨[], ?_, Nat.zero_le _, by simp⟩
  rw [same.regular, List.append_nil]

theorem extends_createBreakpoint (session : Session) (address : Address) :
    Extends session (session.createBreakpoint address).2 1 := by
  refine ⟨[(address, none)], ?_, Nat.le_refl 1, by simp⟩
  simp [createBreakpoint, BreakpointState.createBreakpoint, withBreakpointState, breakpointState,
    identities, MDBBreakpoint.identity]

theorem extends_perform (performed : session.perform ud command = some next) :
    Extends session next (if command.isStepOver then 1 else 0) := by
  rcases perform_cases performed with operates | ⟨⟨index, rfl⟩, middle, address, earlier, later⟩
  · exact (SameBreakpoints.operates operates).extends _
  · have before := (SameBreakpoints.operates earlier).extends 0
    have after := (SameBreakpoints.operates later).extends 0
    exact (before.trans (extends_createBreakpoint middle address)).trans after

/-! ## The addresses of breakpoints -/

theorem hasBreakpoint_iff (noTransient : session.transientBreakpoints = []) {address : Address} :
    session.breakpointState.HasBreakpoint address ↔
      address ∈ (identities session.breakpoints).map (·.1) := by
  simp [HasBreakpoint, breakpointState, noTransient, identities, MDBBreakpoint.identity]

/-- Without transient breakpoints there are none after any operations, and no new addresses. -/
theorem SameBreakpoints.hasBreakpoint_iff (same : SameBreakpoints session next)
    (noTransient : session.transientBreakpoints = []) :
    next.transientBreakpoints = [] ∧ ∀ address,
      next.breakpointState.HasBreakpoint address ↔
        session.breakpointState.HasBreakpoint address := by
  have none : next.transientBreakpoints = [] := by
    rcases same.transient with kept | empty
    · rw [noTransient] at kept
      exact List.map_eq_nil_iff.mp kept
    · exact empty
  refine ⟨none, ?_⟩
  intro address
  rw [Session.hasBreakpoint_iff none, Session.hasBreakpoint_iff noTransient, same.regular]

theorem hasBreakpoint_createBreakpoint (noTransient : session.transientBreakpoints = [])
    {created address : Address} (has : session.breakpointState.HasBreakpoint address) :
    (session.createBreakpoint created).2.breakpointState.HasBreakpoint address := by
  rcases has with ⟨breakpoint, mem, here⟩
  refine ⟨breakpoint, ?_, here⟩
  simp only [breakpointState, noTransient, List.append_nil] at mem
  simp [Session.createBreakpoint, BreakpointState.createBreakpoint, withBreakpointState,
    breakpointState, mem]

/-- All breakpoints are at some known addresses, and none of them is transient. -/
structure At (stops : Address → Prop) (session : Session) : Prop where
  noTransient : session.transientBreakpoints = []
  known : ∀ address, session.breakpointState.HasBreakpoint address → stops address

namespace At

variable {stops : Address → Prop}

theorem operates (located : At stops session) (operates : Operates session next) :
    At stops next := by
  have same := (SameBreakpoints.operates operates).hasBreakpoint_iff located.noTransient
  refine ⟨same.1, ?_⟩
  exact fun address has => located.known address ((same.2 address).mp has)

/-- Where breakpoints are after operations they have been before. -/
theorem of_operates (located : At stops next) (noTransient : session.transientBreakpoints = [])
    (operates : Operates session next) : At stops session := by
  have same := (SameBreakpoints.operates operates).hasBreakpoint_iff noTransient
  exact ⟨noTransient, fun address has => located.known address ((same.2 address).mpr has)⟩

theorem of_createBreakpoint {address : Address}
    (located : At stops (session.createBreakpoint address).2) : At stops session := by
  have noTransient : session.transientBreakpoints = [] := located.noTransient
  refine ⟨noTransient, ?_⟩
  intro other has
  apply located.known
  exact hasBreakpoint_createBreakpoint noTransient has

/-- What is kept up as long as breakpoints are at known addresses holds after operations. -/
theorem preserves (Invariant : Session → Prop)
    (operation : ∀ before after, At stops before → Operation before after →
      Invariant before → Invariant after)
    (wait : ∀ before state after, At stops before →
      before.internalWait SIG_TRAP = some (state, after) → Invariant before → Invariant after)
    (located : At stops session) (operates : Operates session next) (start : Invariant session) :
    Invariant next := by
  have both : At stops next ∧ Invariant next := by
    refine operates.preserves (fun session => At stops session ∧ Invariant session) ?_ ?_
      ⟨located, start⟩
    · rintro before after done ⟨located, holds⟩
      exact ⟨located.operates (.operation done), operation before after located done holds⟩
    · rintro before state after returned ⟨located, holds⟩
      exact ⟨located.operates (.wait returned), wait before state after located returned holds⟩
  exact both.2

end At

/--
An invariant of a run may be shown as if all breakpoints of the last session were there from the
beginning: no breakpoint of the run is at another address than these.
-/
theorem invariant_of_run_known {stops : Address → Prop} (Invariant : Session → Prop)
    (operation : ∀ before after, At stops before → Operation before after →
      Invariant before → Invariant after)
    (wait : ∀ before state after, At stops before →
      before.internalWait SIG_TRAP = some (state, after) → Invariant before → Invariant after)
    (create : ∀ before address, At stops (before.createBreakpoint address).2 →
      Invariant before → Invariant (before.createBreakpoint address).2)
    {start : Session} {commands : List Command} (noTransient : start.transientBreakpoints = [])
    (known : ∀ address, last.breakpointState.HasBreakpoint address → stops address)
    (initially : Invariant start)
    (reached : Transition.run (perform ud) start commands = some last) : Invariant last := by
  suffices run : At stops start ∧ At stops last ∧ (Invariant start → Invariant last) from
    run.2.2 initially
  clear initially
  induction commands generalizing start with
  | nil =>
      cases reached
      exact ⟨⟨noTransient, known⟩, ⟨noTransient, known⟩, id⟩
  | cons command rest ih =>
      rcases Transition.run_cons_eq_some.mp reached with ⟨next, performed, later⟩
      rcases perform_cases performed with operates | ⟨-, middle, behind, earlier, finishes⟩
      · have same := (SameBreakpoints.operates operates).hasBreakpoint_iff noTransient
        rcases ih same.1 later with ⟨locatedNext, locatedLast, goesOn⟩
        have located := locatedNext.of_operates noTransient operates
        refine ⟨located, locatedLast, fun holds => goesOn ?_⟩
        exact located.preserves Invariant operation wait operates holds
      · have before := (SameBreakpoints.operates earlier).hasBreakpoint_iff noTransient
        have created : (middle.createBreakpoint behind).2.transientBreakpoints = [] := before.1
        have after := (SameBreakpoints.operates finishes).hasBreakpoint_iff created
        rcases ih after.1 later with ⟨locatedNext, locatedLast, goesOn⟩
        have locatedCreated := locatedNext.of_operates created finishes
        have located := locatedCreated.of_createBreakpoint.of_operates noTransient earlier
        refine ⟨located, locatedLast, fun holds => goesOn ?_⟩
        apply locatedCreated.preserves Invariant operation wait finishes
        apply create middle behind locatedCreated
        exact located.preserves Invariant operation wait earlier holds

/--
Over every run of commands, whatever waits report and accesses fail, the breakpoints stay in
their places with their addresses and callbacks, and those that are added are at most as many
as calls may have been stepped over, all without a callback.
-/
theorem breakpoints_stay {start : Session} {commands : List Command}
    (reached : Transition.run (perform ud) start commands = some last) :
    Extends start last (commands.countP Command.isStepOver) := by
  induction commands generalizing start with
  | nil =>
      cases reached
      exact (SameBreakpoints.refl _).extends _
  | cons command rest ih =>
      rcases Transition.run_cons_eq_some.mp reached with ⟨next, performed, later⟩
      have extended := (extends_perform performed).trans (ih later)
      rw [List.countP_cons]
      rwa [Nat.add_comm] at extended

/-- A step and a step over a call create a single breakpoint. -/
theorem breakpoints_stay_twoThreads :
    ∃ last, Transition.run (perform fun _ => ⟨5, .UD_Icall⟩) attachedToTwoThreads
        [.step 0, .stepOver 0] = some last ∧
      Extends attachedToTwoThreads last 1 := by
  obtain ⟨last, reached⟩ : ∃ last, Transition.run (perform fun _ => ⟨5, .UD_Icall⟩)
      attachedToTwoThreads [.step 0, .stepOver 0] = some last :=
    Option.isSome_iff_exists.mp (by decide)
  exact ⟨last, reached, breakpoints_stay reached⟩

end Session

end RustDbg
