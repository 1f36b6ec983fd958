import RustDbg.Debugger.Wait

/-!
# What the debugger does between two waits

Between two waits the debugger changes registers, memory, suspend counts and its
breakpoint tables. It neither sees events nor creates threads, and it leaves the
history of its waits alone; `Quiet` says so once for all of its operations.
-/

namespace RustDbg.Session

/-- The session differs at most in what the debugger changes between two waits. -/
structure Quiet (before after : Session) : Prop where
  live : after.target.live = before.target.live
  pidKnown : after.target.pidKnown = before.target.pidKnown
  ports : after.process.ports = before.process.ports
  is64Bit : after.process.is64Bit = before.process.is64Bit
  running : after.process.running = before.process.running
  threads : after.threads = before.threads
  events : after.events = before.events
  observed : after.observed = before.observed
  waits : after.waits = before.waits

namespace Quiet

theorem refl (session : Session) : Quiet session session :=
  ⟨rfl, rfl, rfl, rfl, rfl, rfl, rfl, rfl, rfl⟩

theorem trans {first second third : Session} (left : Quiet first second)
    (right : Quiet second third) : Quiet first third where
  live := right.live.trans left.live
  pidKnown := right.pidKnown.trans left.pidKnown
  ports := right.ports.trans left.ports
  is64Bit := right.is64Bit.trans left.is64Bit
  running := right.running.trans left.running
  threads := right.threads.trans left.threads
  events := right.events.trans left.events
  observed := right.observed.trans left.observed
  waits := right.waits.trans left.waits

theorem length_threads {before after : Session} (quiet : Quiet before after) :
    after.process.threads.length = before.process.threads.length := by
  have ports_eq := congrArg List.length quiet.ports
  simpa [MDBProcess.ports] using ports_eq

variable (session : Session)

/-! ## Breakpoints and instructions -/

theorem enable (ref : BreakpointRef) (enable : Bool) : Quiet session (session.enable ref enable) :=
  ⟨rfl, rfl, rfl, rfl, rfl, rfl, rfl, rfl, rfl⟩

theorem disable (ref : BreakpointRef) : Quiet session (session.disable ref) :=
  enable session ref false

theorem createBreakpoint (address : Address) : Quiet session (session.createBreakpoint address).2 :=
  ⟨rfl, rfl, rfl, rfl, rfl, rfl, rfl, rfl, rfl⟩

theorem deleteTransientBreakpoints {last : Session}
    (deleted : session.deleteTransientBreakpoints = some last) : Quiet session last := by
  simp only [Session.deleteTransientBreakpoints, Option.ite_none_left_eq_some,
    Option.some.injEq] at deleted
  rcases deleted with ⟨-, rfl⟩
  exact ⟨rfl, rfl, rfl, rfl, rfl, rfl, rfl, rfl, rfl⟩

theorem onBreakpointReached (port : ThreadPort) (ref : BreakpointRef) :
    Quiet session (session.onBreakpointReached port ref) :=
  ⟨rfl, rfl, rfl, rfl, rfl, rfl, rfl, rfl, rfl⟩

theorem isCallInstruction (ud : Udis86) (address : Address) :
    Quiet session (session.isCallInstruction ud address).2 :=
  ⟨rfl, rfl, rfl, rfl, rfl, rfl, rfl, rfl, rfl⟩

theorem getInstructionLength (ud : Udis86) (address : Address) :
    Quiet session (session.getInstructionLength ud address).2 :=
  ⟨rfl, rfl, rfl, rfl, rfl, rfl, rfl, rfl, rfl⟩

/-! ## Threads -/

theorem commit (index : Nat) (edit : MDBThreadState32 → MDBThreadState32) :
    let process := { session.process with
      threads := session.process.threads.modify index fun thread =>
        { thread with state32 := edit thread.state32 } }
    Quiet session
      { session with process, target := process.machCommitThread session.target index } := by
  intro process
  have sameTarget : (process.machCommitThread session.target index).live = session.target.live ∧
      (process.machCommitThread session.target index).pidKnown = session.target.pidKnown := by
    simp only [MDBProcess.machCommitThread]
    split
    · exact ⟨Target.live_modifyThread .., Target.pidKnown_modifyThread ..⟩
    · exact ⟨rfl, rfl⟩
  have samePorts : process.ports = session.process.ports := by
    apply MDBProcess.map_thread_modify
    exact fun _ => rfl
  exact ⟨sameTarget.1, sameTarget.2, samePorts, rfl, rfl, rfl, rfl, rfl, rfl⟩

theorem enableSingleStep (index : Nat) (enable : Bool) :
    Quiet session (session.enableSingleStep index enable) :=
  commit session index (·.withTrapFlag enable)

theorem updateInstructionPointerAndCommitState (index : Nat) (offset : BitVec 32) :
    Quiet session (session.updateInstructionPointerAndCommitState index offset) :=
  commit session index fun state => { state with eip := state.eip + offset }

theorem of_sameExecution {session : Session} {target : Target}
    (same : session.target.SameExecution target) : Quiet session { session with target } :=
  ⟨same.live, same.pidKnown, rfl, rfl, rfl, rfl, rfl, rfl, rfl⟩

theorem machSuspendAllThreads : Quiet session session.machSuspendAllThreads :=
  of_sameExecution (MDBProcess.sameExecution_machSuspendAllThreads ..)

theorem machResumeThread (index : Nat) : Quiet session (session.machResumeThread index) := by
  simp only [Session.machResumeThread]
  split
  · apply of_sameExecution
    exact Target.sameExecution_machResumeThread ..
  · exact refl session

theorem machResumeTask : Quiet session session.machResumeTask :=
  of_sameExecution (Target.sameExecution_machResumeTask _)

theorem machResumeThreadsAndTask : Quiet session session.machResumeThreadsAndTask :=
  of_sameExecution (MDBProcess.sameExecution_resumeThreads ..)

theorem resumeAllThreadsAndTask : Quiet session session.resumeAllThreadsAndTask := by
  refine trans ?_ (machResumeTask _)
  induction session.threads generalizing session with
  | nil => exact refl session
  | cons index rest ih => exact (machResumeThread session index).trans (ih _)

end Quiet

/-! ## Tables -/

/-- Raw memory, breakpoints and the memory accesses to come are the same. -/
structure SameTables (before after : Session) : Prop where
  breakpointState : after.breakpointState = before.breakpointState
  accesses : after.accesses = before.accesses

namespace SameTables

theorem trans {first second third : Session} (left : SameTables first second)
    (right : SameTables second third) : SameTables first third :=
  ⟨right.breakpointState.trans left.breakpointState, right.accesses.trans left.accesses⟩

theorem of_memory {session : Session} {process : MDBProcess} {target : Target}
    (memory : target.memory = session.target.memory) :
    SameTables session { session with process, target } :=
  ⟨by simp only [Session.breakpointState, memory], rfl⟩

end SameTables

theorem breakpointState_enable {session : Session} (accesses : session.accesses = [])
    (ref : BreakpointRef) (flag : Bool) :
    (session.enable ref flag).breakpointState =
        session.breakpointState.enable .success ref flag ∧
      (session.enable ref flag).accesses = [] := by
  simp only [enable, nextAccess, accesses, List.headD_nil, List.tail_nil]
  exact ⟨rfl, rfl⟩

end RustDbg.Session
