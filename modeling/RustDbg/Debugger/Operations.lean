import RustDbg.Debugger.Course
import RustDbg.Library.Transition

/-!
# The operations that commands are made of

Every command is a chain of a few operations, of waits and, where a call is stepped over,
of the creation of one breakpoint. An invariant of all runs is therefore shown for each of
these once.
-/

namespace RustDbg.Session

/-- What the debugger does between two waits, apart from creating a breakpoint. -/
inductive Operation : Session → Session → Prop where
  /-- Memory is read by the debugger, for an instruction. -/
  | access (session : Session) : Operation session session.nextAccess.2
  | enable (session : Session) (ref : BreakpointRef) (flag : Bool) :
      Operation session (session.enable ref flag)
  | deleteTransientBreakpoints {session next : Session}
      (deleted : session.deleteTransientBreakpoints = some next) : Operation session next
  | enableSingleStep (session : Session) (index : Nat) (flag : Bool) :
      Operation session (session.enableSingleStep index flag)
  | stepBackThread (session : Session) (index : Nat) :
      Operation session (session.stepBackThread index)
  | machSuspendAllThreads (session : Session) : Operation session session.machSuspendAllThreads
  | machResumeThread (session : Session) (index : Nat) :
      Operation session (session.machResumeThread index)
  | machResumeTask (session : Session) : Operation session session.machResumeTask
  | machResumeThreadsAndTask (session : Session) :
      Operation session session.machResumeThreadsAndTask

/-- One thing that the debugger does without creating a breakpoint. -/
inductive Deed (before after : Session) : Prop where
  | operation (operation : Operation before after)
  | wait (state : MDBProcessRunState)
      (returned : before.internalWait SIG_TRAP = some (state, after))

/-- The debugger gets from one session to the other by operations and waits. -/
def Operates : Session → Session → Prop := Relation.ReflTransGen Deed

namespace Operates

variable {first second third : Session}

theorem refl (session : Session) : Operates session session := Relation.ReflTransGen.refl

theorem operation (operation : Operation first second) : Operates first second :=
  .single (.operation operation)

theorem wait {state : MDBProcessRunState}
    (returned : first.internalWait SIG_TRAP = some (state, second)) : Operates first second :=
  .single (.wait state returned)

theorem trans (left : Operates first second) (right : Operates second third) :
    Operates first third :=
  Relation.ReflTransGen.trans left right

/-- What every operation and every wait keeps up holds however far the debugger gets. -/
theorem preserves (Invariant : Session → Prop)
    (operation : ∀ before after, Operation before after → Invariant before → Invariant after)
    (wait : ∀ before state after, before.internalWait SIG_TRAP = some (state, after) →
      Invariant before → Invariant after)
    (operates : Operates first second) (start : Invariant first) : Invariant second := by
  induction operates with
  | refl => exact start
  | tail _ deed ih =>
      cases deed with
      | operation done => exact operation _ _ done ih
      | wait state returned => exact wait _ state _ returned ih

theorem elim (breakpoint : Option BreakpointRef) (session : Session) (flag : Bool) :
    Operates session (breakpoint.elim session (session.enable · flag)) := by
  cases breakpoint with
  | none => exact refl session
  | some ref => exact operation (.enable session ref flag)

end Operates

variable {session next : Session} {index : Nat} {answer : Bool} {ud : Udis86}

/-! ## Commands -/

theorem operates_singleStepToWait (session : Session) (index : Nat) :
    Operates session (session.singleStepToWait index) := by
  apply (Operates.operation (.enableSingleStep session index true)).trans
  apply (Operates.operation (.machSuspendAllThreads _)).trans
  apply (Operates.operation (.machResumeThread _ index)).trans
  exact .operation (.machResumeTask _)

theorem operates_step (stepped : session.step index = some (answer, next)) :
    Operates session next := by
  simp only [step, Option.bind_eq_bind, Option.bind_eq_some_iff, Prod.exists] at stepped
  rcases stepped with ⟨thread, -, state, waited, returned, result⟩
  simp only [Option.pure_def, Option.some.injEq, Prod.mk.injEq] at result
  rcases result with ⟨-, rfl⟩
  apply (Operates.elim (session.findEnabled thread.state32.pc) session false).trans
  apply (operates_singleStepToWait _ index).trans
  apply (Operates.wait returned).trans
  split
  · apply (Operates.operation (.enableSingleStep waited index false)).trans
    exact .elim _ _ true
  · exact .elim _ _ true

theorem operates_stepOff {breakpoint : BreakpointRef}
    (stepped : session.stepOff index breakpoint = some next) : Operates session next := by
  rcases stepOff_cases stepped with ⟨state, waited, returned, next_eq⟩
  apply (Operates.operation (.enable session breakpoint false)).trans
  apply (operates_singleStepToWait _ index).trans
  apply (Operates.wait returned).trans
  rw [next_eq]
  split
  · apply (Operates.operation (.enableSingleStep waited index false)).trans
    exact .operation (.enable _ breakpoint true)
  · exact .refl waited

theorem operates_stepOffFrom (stepped : session.stepOffFrom index = some next) :
    Operates session next := by
  fun_induction stepOffFrom session index with
  | case1 session index inTable none ih => exact ih stepped
  | case2 session index inTable breakpoint found stuck => cases stepped
  | case3 session index inTable breakpoint found middle steppedOff ih =>
      apply (operates_stepOff steppedOff).trans
      exact ih stepped
  | case4 session index outside =>
      cases stepped
      exact .refl _

theorem operates_checkForBreakpointsAndStepBack (session : Session) :
    Operates session session.checkForBreakpointsAndStepBack := by
  simp only [checkForBreakpointsAndStepBack]
  induction List.range session.process.threads.length generalizing session with
  | nil => exact .refl session
  | cons index rest ih =>
      apply (Operates.operation (.stepBackThread session index)).trans
      exact ih _

theorem operates_resumeToWait (resumed : session.resumeToWait = some next) :
    Operates session next := by
  rcases Option.map_eq_some_iff.mp resumed with ⟨stepped, loop, rfl⟩
  apply (operates_stepOffFrom loop).trans
  exact .operation (.machResumeThreadsAndTask stepped)

theorem operates_resume (resumed : session.resume = some (answer, next)) :
    Operates session next := by
  rcases resume_cases resumed with ⟨freed, state, waited, entered, returned, -, next_eq⟩
  apply (operates_resumeToWait entered).trans
  apply (Operates.wait returned).trans
  rw [next_eq]
  split
  · exact operates_checkForBreakpointsAndStepBack waited
  · exact .refl waited

theorem operates_resumeAllThreadsAndTask (session : Session) :
    Operates session session.resumeAllThreadsAndTask := by
  have resumed : Operates session (session.threads.foldl Session.machResumeThread session) := by
    induction session.threads generalizing session with
    | nil => exact .refl session
    | cons index rest ih =>
        apply (Operates.operation (.machResumeThread session index)).trans
        exact ih _
  apply resumed.trans
  exact .operation (.machResumeTask _)

/-- Before the call is let run a breakpoint is created behind it. -/
theorem operates_stepOverToWait (session : Session) (ud : Udis86) (address : Address) :
    ∃ middle behind, Operates session middle ∧
      Operates (middle.createBreakpoint behind).2 (session.stepOverToWait ud address) := by
  let disabled := (session.findEnabled address).elim session (session.enable · false)
  let measured := disabled.getInstructionLength ud address
  have before : Operates session measured.2 :=
    (Operates.elim _ session false).trans (.operation (.access disabled))
  refine ⟨measured.2, address + BitVec.ofNat 64 measured.1, before, ?_⟩
  apply (Operates.operation (.enable _ _ true)).trans
  exact operates_resumeAllThreadsAndTask _

/-- A call is stepped over by operations and a wait around the creation of a breakpoint. -/
theorem stepOver_cases (stepped : session.stepOver ud index = some (answer, next)) :
    Operates session next ∨
      ∃ middle address, Operates session middle ∧
        Operates (middle.createBreakpoint address).2 next := by
  simp only [stepOver, Option.bind_eq_bind, Option.bind_eq_some_iff] at stepped
  rcases stepped with ⟨thread, -, stepped⟩
  have decoded : Operates session (session.isCallInstruction ud thread.state32.pc).2 :=
    .operation (.access session)
  split at stepped
  · left
    exact decoded.trans (operates_step stepped)
  · right
    simp only [Option.bind_eq_some_iff, Prod.exists] at stepped
    rcases stepped with ⟨state, waited, returned, result⟩
    rcases operates_stepOverToWait (session.isCallInstruction ud thread.state32.pc).2 ud
      thread.state32.pc with ⟨middle, address, earlier, later⟩
    refine ⟨middle, address, decoded.trans earlier, ?_⟩
    apply later.trans
    apply (Operates.wait returned).trans
    split at result
    · simp only [Option.bind_eq_some_iff, Option.pure_def, Option.some.injEq,
        Prod.mk.injEq] at result
      rcases result with ⟨last, deleted, -, rfl⟩
      apply (Operates.elim _ waited true).trans
      exact .operation (.deleteTransientBreakpoints deleted)
    · simp only [Option.pure_def, Option.some.injEq, Prod.mk.injEq] at result
      rcases result with ⟨-, rfl⟩
      exact .refl waited

/-- A command creates at most one breakpoint, and only to step over a call. -/
theorem perform_cases {command : Command} (performed : session.perform ud command = some next) :
    Operates session next ∨
      (∃ index, command = .stepOver index) ∧
        ∃ middle address, Operates session middle ∧
          Operates (middle.createBreakpoint address).2 next := by
  cases command with
  | step index =>
      rcases Option.map_eq_some_iff.mp performed with ⟨⟨answer, last⟩, stepped, rfl⟩
      exact Or.inl (operates_step stepped)
  | resume =>
      rcases Option.map_eq_some_iff.mp performed with ⟨⟨answer, last⟩, resumed, rfl⟩
      exact Or.inl (operates_resume resumed)
  | stepOver index =>
      rcases Option.map_eq_some_iff.mp performed with ⟨⟨answer, last⟩, stepped, rfl⟩
      rcases stepOver_cases stepped with operates | created
      · exact Or.inl operates
      · exact Or.inr ⟨⟨index, rfl⟩, created⟩

/-- What operations, waits and the creation of breakpoints keep up holds all along a run. -/
theorem invariant_of_run (Invariant : Session → Prop)
    (operation : ∀ before after, Operation before after → Invariant before → Invariant after)
    (wait : ∀ before state after, before.internalWait SIG_TRAP = some (state, after) →
      Invariant before → Invariant after)
    (create : ∀ before address, Invariant before → Invariant (before.createBreakpoint address).2)
    {start last : Session} {commands : List Command} (initially : Invariant start)
    (reached : Transition.run (perform ud) start commands = some last) : Invariant last := by
  refine Transition.invariant_of_run Invariant ?_ initially reached
  intro before command after holds performed
  rcases perform_cases performed with operates | ⟨-, middle, address, earlier, later⟩
  · exact operates.preserves Invariant operation wait holds
  · apply later.preserves Invariant operation wait
    apply create
    exact earlier.preserves Invariant operation wait holds

/-! ## Events -/

theorem events_operation (operation : Operation session next) : next.events = session.events := by
  cases operation with
  | deleteTransientBreakpoints deleted =>
      simp only [deleteTransientBreakpoints, Option.ite_none_left_eq_some,
        Option.some.injEq] at deleted
      rcases deleted with ⟨-, rfl⟩
      rfl
  | stepBackThread index => exact (Quiet.stepBackThread session index).events
  | machResumeThread index => exact (Quiet.machResumeThread session index).events
  | _ => rfl

theorem mem_events_of_wait {state : MDBProcessRunState}
    (returned : session.internalWait SIG_TRAP = some (state, next)) {event : WaitEvent}
    (mem : event ∈ next.events) : event ∈ session.events := by
  cases known : session.target.pidKnown with
  | false =>
      simp only [internalWait, known, Bool.false_eq_true, if_false, Option.some.injEq,
        Prod.mk.injEq] at returned
      rcases returned with ⟨-, rfl⟩
      exact mem
  | true =>
      rcases events_internalWait known returned with ⟨used, -, events_eq⟩
      rw [events_eq]
      exact List.mem_append_right used mem

/-- What operations and reports of events of some kind keep up holds all along a run. -/
theorem invariant_of_run_of_events (Holds : WaitEvent → Prop) (Invariant : Session → Prop)
    (operation : ∀ before after, Operation before after → Invariant before → Invariant after)
    (iteration : ∀ event rest middle target outcome, Holds event → Invariant middle →
      event middle.target = some (target, outcome) →
      Invariant (react SIG_TRAP outcome (middle.report rest target outcome)).2)
    (noted : ∀ middle state, Invariant middle → Invariant (middle.noteReturn state))
    (create : ∀ before address, Invariant before → Invariant (before.createBreakpoint address).2)
    {start last : Session} {commands : List Command}
    (events : ∀ event ∈ start.events, Holds event) (initially : Invariant start)
    (reached : Transition.run (perform ud) start commands = some last) : Invariant last := by
  have both : Invariant last ∧ ∀ event ∈ last.events, Holds event := by
    refine invariant_of_run
      (fun session => Invariant session ∧ ∀ event ∈ session.events, Holds event) ?_ ?_ ?_
      ⟨initially, events⟩ reached
    · rintro before after done ⟨holds, events⟩
      refine ⟨operation before after done holds, ?_⟩
      rw [events_operation done]
      exact events
    · rintro before state after returned ⟨holds, events⟩
      refine ⟨internalWait_invariant Holds Invariant iteration noted events holds returned, ?_⟩
      exact fun event mem => events event (mem_events_of_wait returned mem)
    · rintro before address ⟨holds, events⟩
      exact ⟨create before address holds, events⟩
  exact both.1

end RustDbg.Session
