import RustDbg.Debugger.FreeRun
import RustDbg.Debugger.Interference

/-!
# Processes taken for 64-bit ones

`machIs64Bit` always answers yes. So the table of the process that `createProcess` makes is
refreshed with the 64-bit flavor, while the debugger works on the 32-bit states of its threads
and writes these with the 32-bit flavor. Of a thread with 64-bit registers nothing is ever
written, and the 32-bit states are moved by nothing but the debugger itself.
-/

namespace RustDbg

open Interleaving

/-! ## Threads with 64-bit registers -/

/-- Memory differs at stops at most, and threads with 64-bit registers keep them. -/
structure Target.KeepsWide (stops : Address → Prop) (before after : Target) : Prop where
  memory : ∀ address, ¬stops address → after.memory address = before.memory address
  live : after.live = before.live
  wide : ∀ port registers, (after.thread port).registers = .state64 registers ↔
    (before.thread port).registers = .state64 registers

namespace Target.KeepsWide

variable {stops : Address → Prop} {first second third : Target}

theorem of_sameExecution (same : first.SameExecution second) : KeepsWide stops first second where
  memory address _ := congrFun same.memory address
  live := same.live
  wide port _ := by rw [same.registers port]

theorem refl (target : Target) : KeepsWide stops target target := of_sameExecution (.refl target)

instance (stops : Address → Prop) : Std.Refl (KeepsWide stops) := ⟨refl⟩

instance (stops : Address → Prop) : IsTrans Target (KeepsWide stops) where
  trans _ _ _ left right :=
    { memory := fun address other => (right.memory address other).trans (left.memory address other)
      live := right.live.trans left.live
      wide := fun port registers => (right.wide port registers).trans (left.wide port registers) }

theorem threadSetState32 (target : Target) (port : ThreadPort) (written : MDBThreadState32) :
    KeepsWide stops target (target.threadSetState32 port written) where
  memory address _ := congrFun (memory_modifyThread ..) address
  live := live_modifyThread ..
  wide other registers := by
    by_cases same : other = port
    · subst same
      by_cases live : other ∈ target.live
      · rw [registers_threadSetState32 live]
        cases (target.thread other).registers <;> simp
      · rw [Target.threadSetState32, modifyThread_of_notMem _ live]
    · rw [Target.threadSetState32, thread_modifyThread_of_ne _ same]

theorem machCommitThread (process : MDBProcess) (target : Target) (index : Nat) :
    KeepsWide stops target (process.machCommitThread target index) := by
  rw [MDBProcess.machCommitThread]
  split
  · exact threadSetState32 target _ _
  · exact refl target

end Target.KeepsWide

namespace Session

open BreakpointState

variable {stops : Address → Prop} {session next start last : Session} {ud : Udis86}
  {commands : List Command}

theorem keepsWide_operation
    (known : ∀ address, session.breakpointState.HasBreakpoint address → stops address)
    (operation : Operation session next) :
    Interleaves (Target.KeepsWide stops) session next := by
  cases operation with
  | access => exact .own rfl rfl (.refl _)
  | enable ref flag =>
      refine .own rfl rfl ⟨?_, rfl, fun _ _ => Iff.rfl⟩
      intro address elsewhere
      apply memory_enable
      exact fun has => elsewhere (known address has)
  | deleteTransientBreakpoints deleted =>
      simp only [Session.deleteTransientBreakpoints, Option.ite_none_left_eq_some,
        Option.some.injEq] at deleted
      rcases deleted with ⟨-, rfl⟩
      exact .own rfl rfl (.refl _)
  | enableSingleStep index flag => exact .own rfl rfl (.machCommitThread ..)
  | stepBackThread index =>
      simp only [Session.stepBackThread]
      split
      · exact .refl session
      · split
        · exact .refl session
        · exact .own rfl rfl (.machCommitThread ..)
  | machSuspendAllThreads =>
      exact .own rfl rfl (.of_sameExecution (MDBProcess.sameExecution_machSuspendAllThreads ..))
  | machResumeThread index =>
      simp only [Session.machResumeThread]
      split
      · exact .own rfl rfl (.of_sameExecution (Target.sameExecution_machResumeThread ..))
      · exact .refl session
  | machResumeTask =>
      exact .own rfl rfl (.of_sameExecution (Target.sameExecution_machResumeTask _))
  | machResumeThreadsAndTask =>
      exact .own rfl rfl (.of_sameExecution (MDBProcess.sameExecution_resumeThreads ..))

/--
In every run of commands, each event takes place on a target whose 64-bit threads have the very
registers that the event before left them: single steps, stops at breakpoints and steps back
change nothing of them, and of the memory only the bytes at breakpoints.
-/
theorem keepsWide_of_run (noTransient : start.transientBreakpoints = [])
    (reached : Transition.run (perform ud) start commands = some last) :
    Interleaves (Target.KeepsWide last.breakpointState.HasBreakpoint) start last := by
  refine invariant_of_run_known
    (Interleaves (Target.KeepsWide last.breakpointState.HasBreakpoint) start) ?_ ?_ ?_
    noTransient (fun _ has => has) (.refl start) reached
  · intro before after located operation earlier
    exact earlier.trans (keepsWide_operation located.known operation)
  · intro before state after _ returned earlier
    exact earlier.trans (.wait returned)
  · intro before address _ earlier
    exact earlier.trans (.own rfl rfl (.refl _))

/-- A debugger of two threads with 64-bit registers, one of which stands at a breakpoint. -/
def attachedToWideThreads : Session :=
  (attached { twoThreads with thread := fun _ => ⟨.state64 default, ⟨.running, 0⟩⟩ }
    [fun target => some (target, .stopped SIG_TRAP none)]).createBreakpoint 0#64 |>.2

theorem keepsWide_of_run_wideThreads :
    ∃ last, Transition.run (perform fun _ => ⟨1, .other 0⟩) attachedToWideThreads [.step 0] =
        some last ∧
      Interleaves (Target.KeepsWide last.breakpointState.HasBreakpoint)
        attachedToWideThreads last := by
  obtain ⟨last, reached⟩ : ∃ last, Transition.run (perform fun _ => ⟨1, .other 0⟩)
      attachedToWideThreads [.step 0] = some last :=
    Option.isSome_iff_exists.mp (by decide)
  exact ⟨last, reached, keepsWide_of_run rfl reached⟩

end Session

/-! ## Cached 32-bit registers -/

/-- The registers of a thread that has been stepped back some times and may step singly. -/
def MDBThreadState32.steppedBack (registers : MDBThreadState32) (flag : Bool) (count : Nat) :
    MDBThreadState32 :=
  { registers.withTrapFlag flag with eip := registers.eip - BitVec.ofNat 32 count }

namespace MDBThreadState32

variable {registers : MDBThreadState32}

theorem steppedBack_zero (registers : MDBThreadState32) :
    registers.steppedBack registers.trapFlag 0 = registers := by
  simp only [steppedBack, withTrapFlag_trapFlag, BitVec.sub_zero]

theorem withTrapFlag_steppedBack (first second : Bool) (count : Nat) :
    (registers.steppedBack first count).withTrapFlag second =
      registers.steppedBack second count := by
  have eflags : setTrapBit (setTrapBit registers.eflags first) second =
      setTrapBit registers.eflags second :=
    congrArg (·.eflags) (registers.withTrapFlag_withTrapFlag first second)
  simp only [steppedBack, withTrapFlag, eflags]

theorem steppedBack_succ (flag : Bool) (count : Nat) :
    { registers.steppedBack flag count with eip := (registers.steppedBack flag count).eip + -1 } =
      registers.steppedBack flag (count + 1) := by
  have moved : registers.eip - BitVec.ofNat 32 count + -1 =
      registers.eip - BitVec.ofNat 32 (count + 1) := by
    bv_omega
  simp only [steppedBack, moved]

end MDBThreadState32

/-- Editing the state of the thread that a pointer points to edits it for its port only. -/
theorem MDBProcess.state32_entry_modify {process : MDBProcess} (distinct : process.ports.Nodup)
    (index : Nat) (edit : MDBThreadState32 → MDBThreadState32) (port : ThreadPort) :
    (({ process with threads := process.threads.modify index fun thread =>
        { thread with state32 := edit thread.state32 } } : MDBProcess).entry port).state32 =
      if (process.threads[index]?).map (·.thread) = some port
        then edit (process.entry port).state32 else (process.entry port).state32 := by
  cases present : process.threads[index]? with
  | none =>
      rw [List.modify_eq_self (List.getElem?_eq_none_iff.mp present)]
      rfl
  | some thread =>
      have keepsPort : ∀ thread : MDBThread,
          ({ thread with state32 := edit thread.state32 } : MDBThread).thread = thread.thread :=
        fun _ => rfl
      rw [entry_modify keepsPort distinct present, Option.map_some]
      by_cases same : port = thread.thread
      · rw [if_pos same, if_pos (congrArg some same.symm), same,
          entry_eq_of_getElem? distinct present]
      · have other : ¬some thread.thread = some port := fun eq => same (Option.some.inj eq).symm
        rw [if_neg same, if_neg other]

namespace Session

/-- The cached 32-bit registers are those at the start but for what the debugger did to them. -/
structure Frozen (start session : Session) : Prop where
  wide : session.process.is64Bit = true
  distinct : session.process.ports.Nodup
  state32 : ∃ since, session.reached = start.reached ++ since ∧ ∀ port, ∃ flag,
    (session.process.entry port).state32 =
      (start.process.entry port).state32.steppedBack flag (since.countP (·.1 == port))

variable {start session next last : Session} {ud : Udis86} {commands : List Command}

namespace Frozen

theorem refl (wide : start.process.is64Bit = true) (distinct : start.process.ports.Nodup) :
    Frozen start start where
  wide := wide
  distinct := distinct
  state32 := ⟨[], (List.append_nil _).symm,
    fun _ => ⟨_, (MDBThreadState32.steppedBack_zero _).symm⟩⟩

/-- What the table is not involved in. -/
theorem of_process (frozen : Frozen start session) (process : next.process = session.process)
    (reached : next.reached = session.reached) : Frozen start next where
  wide := by
    rw [process]
    exact frozen.wide
  distinct := by
    rw [process]
    exact frozen.distinct
  state32 := by
    rw [process, reached]
    exact frozen.state32

theorem enableSingleStep (frozen : Frozen start session) (index : Nat) (flag : Bool) :
    Frozen start (session.enableSingleStep index flag) where
  wide := frozen.wide
  distinct := by
    rw [(Quiet.enableSingleStep session index flag).ports]
    exact frozen.distinct
  state32 := by
    rcases frozen.state32 with ⟨since, reached, cached⟩
    refine ⟨since, reached, ?_⟩
    intro port
    rcases cached port with ⟨earlier, state32_eq⟩
    have edited := MDBProcess.state32_entry_modify frozen.distinct index (·.withTrapFlag flag) port
    simp only [Session.enableSingleStep, MDBProcess.enableSingleStep, edited, state32_eq]
    split
    · exact ⟨flag, MDBThreadState32.withTrapFlag_steppedBack ..⟩
    · exact ⟨earlier, rfl⟩

theorem stepBackThread (frozen : Frozen start session) (index : Nat) :
    Frozen start (session.stepBackThread index) := by
  have quiet := Quiet.stepBackThread session index
  refine ⟨quiet.is64Bit.trans frozen.wide, ?_, ?_⟩
  · rw [quiet.ports]
    exact frozen.distinct
  · rcases frozen.state32 with ⟨since, reached, cached⟩
    simp only [Session.stepBackThread]
    split
    · exact ⟨since, reached, cached⟩
    · rename_i thread present
      split
      · exact ⟨since, reached, cached⟩
      · rename_i ref found
        refine ⟨since ++ [(thread.thread, ref)], ?_, ?_⟩
        · rw [← List.append_assoc, ← reached]
          rfl
        · intro port
          rcases cached port with ⟨flag, state32_eq⟩
          refine ⟨flag, ?_⟩
          have edited := MDBProcess.state32_entry_modify frozen.distinct index
            (fun state => { state with eip := state.eip + -1 }) port
          rw [present, Option.map_some] at edited
          refine edited.trans ?_
          rw [List.countP_append, List.countP_singleton, state32_eq]
          by_cases same : thread.thread = port
          · simp only [same, if_true, beq_self_eq_true]
            exact MDBThreadState32.steppedBack_succ flag _
          · have other : ¬some thread.thread = some port := by simpa using same
            simp [same]

theorem operation (frozen : Frozen start session) (operation : Operation session next) :
    Frozen start next := by
  cases operation with
  | deleteTransientBreakpoints deleted =>
      simp only [Session.deleteTransientBreakpoints, Option.ite_none_left_eq_some,
        Option.some.injEq] at deleted
      rcases deleted with ⟨-, rfl⟩
      exact frozen.of_process rfl rfl
  | enableSingleStep index flag => exact frozen.enableSingleStep index flag
  | stepBackThread index => exact frozen.stepBackThread index
  | machResumeThread index =>
      simp only [Session.machResumeThread]
      split
      · exact frozen.of_process rfl rfl
      · exact frozen
  | _ => exact frozen.of_process rfl rfl

theorem wait (frozen : Frozen start session) {waitSignal : Signal} {state : MDBProcessRunState}
    (returned : session.internalWait waitSignal = some (state, last)) : Frozen start last := by
  have same := SameSettings.internalWait returned
  refine ⟨same.process.is64Bit.trans frozen.wide, same.process.distinct frozen.distinct, ?_⟩
  rcases frozen.state32 with ⟨since, reached, cached⟩
  refine ⟨since, same.reached.trans reached, ?_⟩
  intro port
  rw [same.process.state32 frozen.wide port]
  exact cached port

end Frozen

/--
In every run of commands on the process object that the constructor makes, the cached 32-bit
registers of a thread never follow the thread: whatever the waits report, the instruction pointer
is the one there was at first, or in the memory of a new object, less one for each time that the
thread was stepped back, and all else but the trap flag is as it was.
-/
theorem frozen_of_run (wide : start.process.is64Bit = true)
    (distinct : start.process.ports.Nodup)
    (reached : Transition.run (perform ud) start commands = some last) : Frozen start last := by
  refine invariant_of_run (Frozen start) ?_ ?_ ?_ (.refl wide distinct) reached
  · exact fun _ _ operation frozen => frozen.operation operation
  · exact fun _ _ _ returned frozen => frozen.wait returned
  · exact fun _ _ frozen => frozen.of_process rfl rfl

/-- Threads whose cached 32-bit registers happen to stand one byte behind a breakpoint. -/
def behindFrozenBreakpoint : Session :=
  let (ref, session) := attachedToTwoThreads.createBreakpoint 0xFFFFFFFF#64
  session.enable ref true

theorem resume_behindFrozenBreakpoint : ∃ last, behindFrozenBreakpoint.resume = some (true, last) ∧
    last.reached = [(1, .regular 0), (2, .regular 0)] := by
  have clear : ∀ thread ∈ behindFrozenBreakpoint.process.threads,
      behindFrozenBreakpoint.findEnabled thread.state32.pc = none := by
    decide
  simp only [resume, resumeToWait, checkForBreakpointsAndStep, stepOffFrom_eq_self clear]
  exact ⟨_, rfl, rfl⟩

/-- Both threads are stepped back once, though neither of them has hit the breakpoint. -/
theorem frozen_of_run_twoThreads :
    ∃ last, Transition.run (perform fun _ => ⟨1, .other 0⟩) behindFrozenBreakpoint [.resume] =
        some last ∧
      last.reached = [(1, .regular 0), (2, .regular 0)] ∧ Frozen behindFrozenBreakpoint last := by
  rcases resume_behindFrozenBreakpoint with ⟨last, resumed, steppedBack⟩
  have reached : Transition.run (perform fun _ => ⟨1, .other 0⟩) behindFrozenBreakpoint
      [.resume] = some last := by
    simp [Transition.run, perform, resumed]
  exact ⟨last, reached, steppedBack, frozen_of_run rfl (by decide) reached⟩

end Session

end RustDbg
