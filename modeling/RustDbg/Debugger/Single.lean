import RustDbg.Debugger.Course
import RustDbg.Debugger.Machine

/-!
# Debugging a single thread

A session whose target has one thread with an up-to-date cache. The operations of the
debugger on that thread and the waits for it keep the cache up to date, until the
program ends; from then on no wait reports a stop any more.
-/

namespace RustDbg.Session

open Execution

variable {machine : Machine} {port : ThreadPort} {session last : Session}
  {registers : MDBThreadState32} {state : MDBProcessRunState}

/-- The target has one thread, which is the only one in the table and cached as it is. -/
structure Sole (port : ThreadPort) (session : Session) (registers : MDBThreadState32) : Prop where
  live : session.target.live = [port]
  current : (session.target.thread port).registers = .state32 registers
  cached : ∃ thread, session.process.threads = [thread] ∧ thread.thread = port ∧
    thread.state32 = registers
  is64Bit : session.process.is64Bit = false
  pidKnown : session.target.pidKnown = true

/-- All events to come are those of a target that runs the machine. -/
def Driven (machine : Machine) (port : ThreadPort) (session : Session) : Prop :=
  ∀ event ∈ session.events, machine.Drives port event

theorem Driven.quiet (driven : Driven machine port session) (quiet : Quiet session last) :
    Driven machine port last := by
  simp only [Driven, quiet.events]
  exact driven

namespace Sole

/-! ## Operations of the debugger -/

theorem sameExecution (sole : Sole port session registers) {target : Target}
    (same : session.target.SameExecution target) :
    Sole port { session with target } registers where
  live := same.live.trans sole.live
  current := (same.registers port).trans sole.current
  cached := sole.cached
  is64Bit := sole.is64Bit
  pidKnown := same.pidKnown.trans sole.pidKnown

theorem enable (sole : Sole port session registers) (ref : BreakpointRef) (enable : Bool) :
    Sole port (session.enable ref enable) registers :=
  ⟨sole.live, sole.current, sole.cached, sole.is64Bit, sole.pidKnown⟩

theorem commit (sole : Sole port session registers) (edit : MDBThreadState32 → MDBThreadState32) :
    let process := { session.process with
      threads := session.process.threads.modify 0 fun thread =>
        { thread with state32 := edit thread.state32 } }
    Sole port { session with process, target := process.machCommitThread session.target 0 }
        (edit registers) ∧
      (process.machCommitThread session.target 0).memory = session.target.memory := by
  intro process
  rcases sole.cached with ⟨thread, table, rfl, rfl⟩
  have target_eq : process.machCommitThread session.target 0 =
      session.target.threadSetState32 thread.thread (edit thread.state32) := by
    simp [process, MDBProcess.machCommitThread, table]
  have live : thread.thread ∈ session.target.live := by simp [sole.live]
  rw [target_eq]
  refine ⟨⟨?_, ?_, ?_, sole.is64Bit, ?_⟩, Target.memory_modifyThread ..⟩
  · exact (Target.live_modifyThread ..).trans sole.live
  · change ((session.target.threadSetState32 _ _).thread _).registers = _
    simp only [Target.registers_threadSetState32 live, sole.current]
  · exact ⟨{ thread with state32 := edit thread.state32 }, by simp [process, table], rfl, rfl⟩
  · exact (Target.pidKnown_modifyThread ..).trans sole.pidKnown

theorem enableSingleStep (sole : Sole port session registers) (enable : Bool) :
    Sole port (session.enableSingleStep 0 enable) (registers.withTrapFlag enable) ∧
      SameTables session (session.enableSingleStep 0 enable) := by
  have committed := sole.commit (·.withTrapFlag enable)
  exact ⟨committed.1, .of_memory committed.2⟩

theorem updateInstructionPointerAndCommitState (sole : Sole port session registers)
    (offset : BitVec 32) :
    Sole port (session.updateInstructionPointerAndCommitState 0 offset)
        { registers with eip := registers.eip + offset } ∧
      SameTables session (session.updateInstructionPointerAndCommitState 0 offset) := by
  have committed := sole.commit fun state => { state with eip := state.eip + offset }
  exact ⟨committed.1, .of_memory committed.2⟩

theorem singleStepToWait (sole : Sole port session registers) :
    Sole port (session.singleStepToWait 0) (registers.withTrapFlag true) ∧
      SameTables session (session.singleStepToWait 0) := by
  rcases sole.enableSingleStep true with ⟨flagged, tables⟩
  rcases exists_singleStepToWait_eq session 0 with ⟨target, same, prepared⟩
  rw [prepared]
  exact ⟨flagged.sameExecution same, tables.trans (.of_memory same.memory)⟩

theorem machResumeThreadsAndTask (sole : Sole port session registers) :
    Sole port session.machResumeThreadsAndTask registers ∧
      SameTables session session.machResumeThreadsAndTask := by
  have same := MDBProcess.sameExecution_resumeThreads session.process.threads session.target
  exact ⟨sole.sameExecution same, .of_memory same.memory⟩

/-! ## Waits -/

theorem gatherThreads_single {process : MDBProcess} {target : Target} {thread : MDBThread}
    (table : process.threads = [thread]) (live : target.live = [thread.thread])
    (narrow : process.is64Bit = false)
    (current : (target.thread thread.thread).registers = .state32 registers) :
    ∃ gathered, (process.gatherThreads target).threads = [gathered] ∧
      gathered.thread = thread.thread ∧ gathered.state32 = registers := by
  refine ⟨thread.update false target, ?_, rfl, ?_⟩
  · simp [MDBProcess.gatherThreads, live, MDBProcess.gatherThread, MDBProcess.findThread, table,
      MDBProcess.machUpdateThread, narrow]
  · simp [MDBThread.update, Target.threadGetState32, live, current]

/-- The states in which a program can have stopped that runs from a state until it pauses. -/
def Stops (machine : Machine) (state stop : ProgramState) : Prop :=
  ∃ last, StopsAt machine.execute machine.Pauses state last ∧ machine.pause last = some stop

/-- How a wait for a program ends that runs on from a state. -/
inductive Found (machine : Machine) (port : ThreadPort) (start : ProgramState) :
    MDBProcessRunState → Session → Prop where
  | stopped {last : Session} {stop : ProgramState} (stops : Stops machine start stop)
      (sole : Sole port last stop.registers) (memory : last.target.memory = stop.memory) :
      Found machine port start .PRS_STOPPED last
  | ended {last : Session} (gone : last.target.live = []) :
      Found machine port start .PRS_TERMINATED last

theorem Found.noteReturn {start : ProgramState} (found : Found machine port start state last) :
    Found machine port start state (last.noteReturn state) := by
  cases found with
  | stopped stops sole memory =>
      have noted : Sole port (last.noteReturn .PRS_STOPPED) _ :=
        ⟨sole.live, sole.current, sole.cached, sole.is64Bit, sole.pidKnown⟩
      exact .stopped stops noted memory
  | ended gone => exact .ended gone

theorem shown_eq {target : Target} {state : ProgramState}
    (current : (target.thread port).registers = .state32 registers)
    (shown : target.Shows port state) : state = ⟨registers, target.memory⟩ := by
  have same : RegisterFile.state32 state.registers = .state32 registers :=
    shown.registers.symm.trans current
  simp only [RegisterFile.state32.injEq] at same
  simp only [← same, shown.memory]

theorem gathered (sole : Sole port session registers) {middle : Session} {rest : List WaitEvent}
    {target : Target} {outcome : WaitOutcome} {stop : ProgramState}
    (process : middle.process = session.process) (shows : target.Shows port stop)
    (pidKnown : target.pidKnown = true) :
    Sole port (middle.report rest target outcome).gatherThreads stop.registers := by
  rcases sole.cached with ⟨thread, table, rfl, -⟩
  refine ⟨shows.live, shows.registers, ?_, ?_, pidKnown⟩
  · exact gatherThreads_single ((congrArg (·.threads) process).trans table) shows.live
      ((congrArg (·.is64Bit) process).trans sole.is64Bit) shows.registers
  · change (middle.process.gatherThreads target).is64Bit = false
    simp only [MDBProcess.is64Bit_gatherThreads, process, sole.is64Bit]

/-- While the program is there a signal to the debugger, a stop or its end is reported. -/
theorem reports_cases (sole : Sole port session registers) {target : Target}
    {outcome : WaitOutcome}
    (reports : machine.Reports port session.target (target, outcome)) :
    (outcome = .failed EINTR ∧ target = session.target) ∨
    (∃ code, outcome = .exited code ∧ target.live = []) ∨
    (∃ continueError stop, outcome = .stopped SIG_TRAP continueError ∧
      Stops machine ⟨registers, session.target.memory⟩ stop ∧ target.Shows port stop ∧
      target.pidKnown = true) := by
  cases reports with
  | interrupted => exact Or.inl ⟨rfl, rfl⟩
  | gone gone _ => simp [sole.live] at gone
  | exited _ _ _ _ gone => exact Or.inr (Or.inl ⟨_, rfl, gone⟩)
  | stopped shown _ run paused shows pidKnown =>
      simp only [shown_eq sole.current shown] at run
      apply Or.inr
      exact Or.inr ⟨_, _, rfl, ⟨_, run, paused⟩, shows, pidKnown.trans sole.pidKnown⟩

/-- A wait finds that the program has stopped, or that it has ended. -/
theorem wait (sole : Sole port session registers) (driven : Driven machine port session)
    (returned : session.internalWait SIG_TRAP = some (state, last)) :
    Driven machine port last ∧
      Found machine port ⟨registers, session.target.memory⟩ state last := by
  rcases internalWait_cases returned with ⟨unknown, -, -⟩ | ⟨-, next, looped, rfl⟩
  · simp [sole.pidKnown] at unknown
  · have ended : Driven machine port next ∧
        Found machine port ⟨registers, session.target.memory⟩ state next := by
      refine waitLoop_rule
        (fun events middle => middle.target = session.target ∧ middle.process = session.process ∧
          ∀ event ∈ events, machine.Drives port event)
        (fun state next => Driven machine port next ∧
          Found machine port ⟨registers, session.target.memory⟩ state next)
        ?_ ?_ ⟨rfl, rfl, driven⟩ looped
      · rintro event rest middle target outcome next ⟨sameTarget, sameProcess, drives⟩ reported
          reaction
        have reports := drives event List.mem_cons_self _ _ reported
        simp only [sameTarget] at reports
        rcases sole.reports_cases reports with
          ⟨rfl, rfl⟩ | ⟨code, rfl, -⟩ | ⟨continueError, stop, rfl, -⟩
        · rcases Prod.mk.inj reaction with ⟨-, rfl⟩
          exact ⟨rfl, sameProcess, fun event mem => drives event (.tail _ mem)⟩
        · simp [react] at reaction
        · simp [react] at reaction
      · rintro event rest middle target outcome state next ⟨sameTarget, sameProcess, drives⟩
          reported reaction
        have reports := drives event List.mem_cons_self _ _ reported
        simp only [sameTarget] at reports
        constructor
        · simp only [Driven, events_of_react reaction]
          exact fun event mem => drives event (.tail _ mem)
        · rcases sole.reports_cases reports with
            ⟨rfl, rfl⟩ | ⟨code, rfl, gone⟩ | ⟨continueError, stop, rfl, stops, shows, pidKnown⟩
          · simp [react] at reaction
          · rcases Prod.mk.inj reaction with ⟨⟨⟩, rfl⟩
            exact .ended gone
          · simp only [react, if_true] at reaction
            rcases Prod.mk.inj reaction with ⟨⟨⟩, rfl⟩
            exact .stopped stops (sole.gathered sameProcess shows pidKnown) shows.memory
    exact ⟨ended.1, ended.2.noteReturn⟩

end Sole

/-! ## When the program has ended -/

/-- The program has ended and nothing but that can be reported. -/
structure Ended (machine : Machine) (port : ThreadPort) (session : Session) : Prop where
  live : session.target.live = []
  driven : Driven machine port session

namespace Ended

theorem quiet (ended : Ended machine port session) (quiet : Quiet session last) :
    Ended machine port last :=
  ⟨quiet.live.trans ended.live, ended.driven.quiet quiet⟩

theorem reports {target after : Target} {outcome : WaitOutcome} (gone : target.live = [])
    (reports : machine.Reports port target (after, outcome)) :
    after.live = [] ∧ ∃ errno, outcome = .failed errno := by
  cases reports with
  | interrupted => exact ⟨gone, _, rfl⟩
  | stopped shown _ _ _ _ _ => simp [shown.live] at gone
  | exited shown _ _ _ _ => simp [shown.live] at gone
  | gone _ _ => exact ⟨gone, _, rfl⟩

/-- No wait for an ended program finds it stopped. -/
theorem wait (ended : Ended machine port session)
    (returned : session.internalWait SIG_TRAP = some (state, last)) :
    state ≠ .PRS_STOPPED ∧ Ended machine port last := by
  rcases internalWait_cases returned with ⟨-, rfl, rfl⟩ | ⟨-, next, looped, rfl⟩
  · exact ⟨by simp, ended.live, ended.driven⟩
  · have found : state ≠ .PRS_STOPPED ∧ Ended machine port next := by
      refine waitLoop_rule
        (fun events middle => middle.target.live = [] ∧
          ∀ event ∈ events, machine.Drives port event)
        (fun state next => state ≠ .PRS_STOPPED ∧ Ended machine port next)
        ?_ ?_ ⟨ended.live, ended.driven⟩ looped
      · rintro event rest middle target outcome next ⟨gone, drives⟩ reported reaction
        rcases Ended.reports gone (drives event List.mem_cons_self _ _ reported) with
          ⟨stillGone, errno, rfl⟩
        simp only [react] at reaction
        split at reaction
        · rcases Prod.mk.inj reaction with ⟨-, rfl⟩
          exact ⟨stillGone, fun event mem => drives event (.tail _ mem)⟩
        · simp at reaction
      · rintro event rest middle target outcome state next ⟨gone, drives⟩ reported reaction
        rcases Ended.reports gone (drives event List.mem_cons_self _ _ reported) with
          ⟨stillGone, errno, rfl⟩
        have events := events_of_react reaction
        simp only [react] at reaction
        split at reaction
        · simp at reaction
        · rcases Prod.mk.inj reaction with ⟨⟨⟩, rfl⟩
          refine ⟨by simp, stillGone, ?_⟩
          simp only [Driven, events]
          exact fun event mem => drives event (.tail _ mem)
    exact ⟨found.1, found.2.live, found.2.driven⟩

theorem advances (ended : Ended machine port session) (advances : Advances session last) :
    Ended machine port last :=
  advances.preserves (Ended machine port) (fun _ _ ended quiet => ended.quiet quiet)
    (fun _ _ _ ended returned => (ended.wait returned).2) ended

end Ended

end RustDbg.Session
