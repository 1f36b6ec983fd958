import RustDbg.Breakpoint.Hiding
import RustDbg.Debugger.BreakpointTable
import RustDbg.Debugger.StepOff

/-!
# Breakpoints over a run

Stepping off breakpoints, stepping over calls and resuming switch breakpoints off and on again
while the program writes to its memory. As long as no access fails the debugger goes on to read
the bytes of the program, and the memory holds them wherever no breakpoint is enabled.
-/

namespace RustDbg

/-- Up to an event only bytes at some addresses are written. -/
def WaitEvent.WritesOnly (written : Address → Prop) (event : WaitEvent) : Prop :=
  ∀ target after outcome, event target = some (after, outcome) →
    ∀ address, ¬written address → after.memory address = target.memory address

namespace BreakpointState

variable {original : Memory} {state : BreakpointState}

theorem Hidden.enable (hidden : Hidden original state) (ref : BreakpointRef) (flag : Bool) :
    Hidden original (state.enable .success ref flag) := by
  cases present : state.deref ref with
  | none => simpa only [BreakpointState.enable, present] using hidden
  | some breakpoint =>
      apply hidden.perform (accessesSucceed_success state (.enable ref flag))
      simp [BreakpointState.perform, present]

/-- What the debugger reads becomes what the program writes, except under breakpoints. -/
theorem Hidden.rewritten (hidden : Hidden original state) (memory : Memory) :
    Hidden { state with memory }.view { state with memory } :=
  ⟨hidden.noTransient, hidden.sound.rewritten memory⟩

end BreakpointState

namespace Session

open BreakpointState

variable {written : Address → Prop} {original : Memory} {session next last : Session}
  {ud : Udis86}

/-- The debugger reads original bytes, except where the program writes to its memory. -/
structure ReadsOriginal (written : Address → Prop) (original : Memory) (session : Session) : Prop
    where
  hidden : Hidden session.breakpointState.view session.breakpointState
  view : ∀ address, ¬written address → session.breakpointState.view address = original address
  accesses : session.accesses = []

namespace ReadsOriginal

theorem of_hidden {current : Memory} (hidden : Hidden current session.breakpointState)
    (agree : ∀ address, ¬written address → current address = original address)
    (accesses : session.accesses = []) : ReadsOriginal written original session := by
  have view := hidden.view_eq
  refine ⟨?_, ?_, accesses⟩
  · rw [view]
    exact hidden
  · rw [view]
    exact agree

theorem of_same (reads : ReadsOriginal written original session)
    (same : next.breakpointState = session.breakpointState) (accesses : next.accesses = []) :
    ReadsOriginal written original next := by
  refine ⟨?_, ?_, accesses⟩
  · rw [same]
    exact reads.hidden
  · rw [same]
    exact reads.view

theorem of_memory (reads : ReadsOriginal written original session) {process : MDBProcess}
    {target : Target} (memory : target.memory = session.target.memory) :
    ReadsOriginal written original { session with process, target } := by
  refine reads.of_same ?_ reads.accesses
  simp only [breakpointState, memory]

theorem memory_machCommitThread (process : MDBProcess) (target : Target) (index : Nat) :
    (process.machCommitThread target index).memory = target.memory := by
  simp only [MDBProcess.machCommitThread]
  split
  · exact Target.memory_modifyThread ..
  · rfl

theorem operation (reads : ReadsOriginal written original session)
    (operation : Operation session next) : ReadsOriginal written original next := by
  cases operation with
  | access =>
      refine reads.of_same rfl ?_
      exact congrArg List.tail reads.accesses
  | enable ref flag =>
      rcases breakpointState_enable reads.accesses ref flag with ⟨tables, accesses⟩
      refine of_hidden ?_ reads.view accesses
      rw [tables]
      exact reads.hidden.enable ref flag
  | deleteTransientBreakpoints deleted =>
      simp only [Session.deleteTransientBreakpoints, Option.ite_none_left_eq_some,
        Option.some.injEq] at deleted
      rcases deleted with ⟨-, rfl⟩
      have noTransient : session.transientBreakpoints = [] := reads.hidden.noTransient
      refine reads.of_same ?_ reads.accesses
      simp only [breakpointState, noTransient]
  | enableSingleStep index flag => exact reads.of_memory (memory_machCommitThread ..)
  | stepBackThread index =>
      simp only [Session.stepBackThread]
      split
      · exact reads
      · rename_i thread present
        split
        · exact reads
        · rename_i ref found
          have reached : ReadsOriginal written original
              (session.onBreakpointReached thread.thread ref) :=
            reads.of_same rfl reads.accesses
          exact reached.of_memory (memory_machCommitThread ..)
  | machSuspendAllThreads =>
      exact reads.of_memory (MDBProcess.sameExecution_machSuspendAllThreads ..).memory
  | machResumeThread index =>
      simp only [Session.machResumeThread]
      split
      · exact reads.of_memory (Target.sameExecution_machResumeThread ..).memory
      · exact reads
  | machResumeTask => exact reads.of_memory (Target.sameExecution_machResumeTask _).memory
  | machResumeThreadsAndTask =>
      exact reads.of_memory (MDBProcess.sameExecution_resumeThreads ..).memory

/-- At a report the program has written to its memory, and nothing is switched. -/
theorem report (reads : ReadsOriginal written original session) {waitSignal : Signal}
    {target : Target} {outcome : WaitOutcome} {rest : List WaitEvent}
    (writes : ∀ address, ¬written address →
      target.memory address = session.target.memory address) :
    ReadsOriginal written original
      (react waitSignal outcome (session.report rest target outcome)).2 := by
  have same := SameSettings.react waitSignal outcome (session.report rest target outcome)
  have tables : (react waitSignal outcome (session.report rest target outcome)).2.breakpointState =
      { session.breakpointState with memory := target.memory } := by
    have memory : (react waitSignal outcome (session.report rest target outcome)).2.target.memory =
        target.memory := congrArg Target.memory (target_react ..)
    simp only [breakpointState, same.breakpoints, same.transientBreakpoints, memory]
    rfl
  have hidden := reads.hidden.rewritten target.memory
  rw [← tables] at hidden
  refine of_hidden hidden ?_ (same.accesses.trans reads.accesses)
  intro address elsewhere
  rw [tables, ← reads.view address elsewhere]
  exact reads.hidden.sound.overlay_rewritten (writes address elsewhere)

theorem createBreakpoint (reads : ReadsOriginal written original session) (address : Address) :
    ReadsOriginal written original (session.createBreakpoint address).2 := by
  refine of_hidden ?_ reads.view reads.accesses
  apply reads.hidden.perform (accessesSucceed_success _
    (.createBreakpoint address none (session.unusedPatch session.breakpoints.length)))
  rfl

theorem run {start : Session} {commands : List Command}
    (hidden : Hidden original start.breakpointState) (accesses : start.accesses = [])
    (events : ∀ event ∈ start.events, event.WritesOnly written)
    (reached : Transition.run (perform ud) start commands = some last) :
    ReadsOriginal written original last := by
  refine invariant_of_run_of_events (WaitEvent.WritesOnly written)
    (ReadsOriginal written original) ?_ ?_ ?_ ?_ events
    (.of_hidden hidden (fun _ _ => rfl) accesses) reached
  · exact fun _ _ operation reads => reads.operation operation
  · intro event rest middle target outcome writes reads reported
    exact reads.report (writes _ _ _ reported)
  · exact fun _ _ reads => reads.of_same rfl reads.accesses
  · exact fun _ address reads => reads.createBreakpoint address

end ReadsOriginal

/--
In every run of commands in which no access fails, whatever threads do and waits report, an
address that the program does not write to is read as its original byte, and holds it unless a
breakpoint is enabled there.
-/
theorem view_of_run {start : Session} {commands : List Command}
    (hidden : Hidden original start.breakpointState) (accesses : start.accesses = [])
    (events : ∀ event ∈ start.events, event.WritesOnly written)
    (reached : Transition.run (perform ud) start commands = some last) :
    ∀ address, ¬written address → last.breakpointState.view address = original address ∧
      ((∀ breakpoint ∈ last.breakpoints, breakpoint.enabled = true →
        breakpoint.address ≠ address) → last.target.memory address = original address) := by
  have reads := ReadsOriginal.run hidden accesses events reached
  intro address elsewhere
  refine ⟨reads.view address elsewhere, ?_⟩
  intro uncovered
  rw [← reads.view address elsewhere]
  exact reads.hidden.memory_eq uncovered

theorem hidden_oneStanding : Hidden (fun _ => 0x90#8) oneStanding.breakpointState := by
  refine ⟨rfl, ?_, ?_⟩
  · intro site mem
    rcases List.mem_singleton.mp mem with rfl
    rfl
  · intro address uncovered
    apply Function.update_of_ne
    exact (uncovered (0x1000#64, 0x90#8) (List.mem_singleton_self _)).symm

/-- A thread is stepped off a breakpoint by a program that writes nothing. -/
theorem view_of_run_oneStanding :
    ∃ last, Transition.run (perform fun _ => ⟨1, .other 0⟩) oneStanding [.step 0] = some last ∧
      ∀ address, ¬False → last.breakpointState.view address = 0x90#8 ∧
        ((∀ breakpoint ∈ last.breakpoints, breakpoint.enabled = true →
          breakpoint.address ≠ address) → last.target.memory address = 0x90#8) := by
  obtain ⟨last, reached⟩ : ∃ last,
      Transition.run (perform fun _ => ⟨1, .other 0⟩) oneStanding [.step 0] = some last :=
    Option.isSome_iff_exists.mp (by decide)
  refine ⟨last, reached, view_of_run hidden_oneStanding rfl ?_ reached⟩
  intro event mem target after outcome reported address _
  rcases List.mem_singleton.mp mem with rfl
  rcases Prod.mk.inj (Option.some.inj reported) with ⟨rfl, -⟩
  exact congrFun (Target.memory_modifyThread ..) address

end Session

end RustDbg
