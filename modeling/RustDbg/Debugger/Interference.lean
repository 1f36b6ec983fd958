import RustDbg.Debugger.BreakpointTable
import RustDbg.Debugger.Coherence
import RustDbg.Debugger.Life
import RustDbg.Library.Interleaving

/-!
# What the debugger does to the program

Between two events that it waits for the debugger writes bytes at addresses of breakpoints, sets
and clears trap flags and sets the instruction pointer of a thread to a breakpoint; and it
suspends, resumes and aborts threads and the task, which changes how often they are suspended and
whether they run, but not what they have come to. A run of commands is thus the program's own run
with these interferences in between: every event takes place on the target that the debugger left,
is used once, and in order.
-/

namespace RustDbg

open Interleaving

/-- Of the registers at most the trap flag differs, or a stop is where a thread stands now. -/
inductive RegisterFile.SameProgram (stops : Address → Prop) : RegisterFile → RegisterFile → Prop
    where
  | same (registers : RegisterFile) : SameProgram stops registers registers
  | touched (registers : MDBThreadState32) (flag : Bool) (eip : BitVec 32)
      (place : eip = registers.eip ∨ stops (eip.setWidth 64)) :
      SameProgram stops (.state32 registers) (.state32 { registers.withTrapFlag flag with eip })

theorem RegisterFile.SameProgram.trans {stops : Address → Prop} {first second third : RegisterFile}
    (left : SameProgram stops first second) (right : SameProgram stops second third) :
    SameProgram stops first third := by
  cases left with
  | same => exact right
  | touched registers flag eip place =>
      cases right with
      | same => exact .touched registers flag eip place
      | touched _ later eip' place' =>
          have eflags : setTrapBit (setTrapBit registers.eflags flag) later =
              setTrapBit registers.eflags later :=
            congrArg (·.eflags) (registers.withTrapFlag_withTrapFlag flag later)
          have twice :
              ({ MDBThreadState32.withTrapFlag { registers.withTrapFlag flag with eip } later
                with eip := eip' } : MDBThreadState32) =
              { registers.withTrapFlag later with eip := eip' } := by
            simp only [MDBThreadState32.withTrapFlag, eflags]
          rw [twice]
          apply RegisterFile.SameProgram.touched
          rcases place' with rfl | stop
          · exact place
          · exact Or.inr stop

/--
Memory differs at stops at most, and the same threads live, with the same registers but for
what debugging needs. Whether and how often threads and the task are suspended is left open.
-/
structure Target.SameProgram (stops : Address → Prop) (before after : Target) : Prop where
  memory : ∀ address, ¬stops address → after.memory address = before.memory address
  live : after.live = before.live
  pidKnown : after.pidKnown = before.pidKnown
  registers : ∀ port,
    RegisterFile.SameProgram stops (before.thread port).registers (after.thread port).registers

namespace Target.SameProgram

variable {stops : Address → Prop} {first second third : Target}

theorem of_sameExecution (same : first.SameExecution second) : SameProgram stops first second where
  memory address _ := congrFun same.memory address
  live := same.live
  pidKnown := same.pidKnown
  registers port := by
    rw [same.registers port]
    exact .same _

theorem refl (target : Target) : SameProgram stops target target := of_sameExecution (.refl target)

theorem trans (left : SameProgram stops first second) (right : SameProgram stops second third) :
    SameProgram stops first third where
  memory address other := (right.memory address other).trans (left.memory address other)
  live := right.live.trans left.live
  pidKnown := right.pidKnown.trans left.pidKnown
  registers port := (left.registers port).trans (right.registers port)

instance (stops : Address → Prop) : Std.Refl (SameProgram stops) := ⟨refl⟩

instance (stops : Address → Prop) : IsTrans Target (SameProgram stops) :=
  ⟨fun _ _ _ left right => left.trans right⟩

theorem threadSetState32 {port : ThreadPort} {written : MDBThreadState32}
    (touched : ∀ registers, first.threadGetState32 port = some registers →
      RegisterFile.SameProgram stops (.state32 registers) (.state32 written)) :
    SameProgram stops first (first.threadSetState32 port written) where
  memory address _ := congrFun (memory_modifyThread ..) address
  live := live_modifyThread ..
  pidKnown := pidKnown_modifyThread ..
  registers other := by
    by_cases same : other = port
    · subst same
      by_cases live : other ∈ first.live
      · rw [registers_threadSetState32 live]
        cases current : (first.thread other).registers with
        | state32 registers =>
            apply touched registers
            exact threadGetState32_eq_some_iff.mpr ⟨live, current⟩
        | state64 registers => exact .same _
      · rw [Target.threadSetState32, modifyThread_of_notMem _ live]
        exact .same _
    · rw [Target.threadSetState32, thread_modifyThread_of_ne _ same]
      exact .same _

end Target.SameProgram

namespace Session

open BreakpointState

/-- The events in between have been used in order, with the debugger interfering in some way. -/
def Interleaves (interferes : Target → Target → Prop) (before after : Session) : Prop :=
  ∃ used outcomes, before.events = used ++ after.events ∧
    after.observed = before.observed ++ outcomes ∧
    Interleaved interferes used outcomes before.target after.target

variable {interferes : Target → Target → Prop} {stops : Address → Prop}
  {session next first second third last : Session} {ud : Udis86}

namespace Interleaves

theorem own (events : second.events = first.events) (observed : second.observed = first.observed)
    (interfered : interferes first.target second.target) : Interleaves interferes first second := by
  refine ⟨[], [], ?_, ?_, .own interfered⟩
  · rw [List.nil_append, events]
  · rw [List.append_nil, observed]

theorem refl [Std.Refl interferes] (session : Session) : Interleaves interferes session session :=
  own rfl rfl (Std.Refl.refl _)

theorem trans [IsTrans Target interferes] (left : Interleaves interferes first second)
    (right : Interleaves interferes second third) : Interleaves interferes first third := by
  rcases left with ⟨used, outcomes, events, observed, run⟩
  rcases right with ⟨later, others, laterEvents, laterObserved, laterRun⟩
  refine ⟨used ++ later, outcomes ++ others, ?_, ?_, ?_⟩
  · rw [events, laterEvents, List.append_assoc]
  · rw [laterObserved, observed, List.append_assoc]
  · exact run.append (IsTrans.trans _ _ _) laterRun

/-- An iteration of a wait uses one event, on the target as the iteration before left it. -/
theorem iteration [Std.Refl interferes] {waitSignal : Signal} {event : WaitEvent}
    {rest : List WaitEvent} {target : Target} {outcome : WaitOutcome}
    {result : Option MDBProcessRunState}
    (coming : session.events = event :: rest)
    (reported : event session.target = some (target, outcome))
    (reaction : react waitSignal outcome (session.report rest target outcome) = (result, next)) :
    Interleaves interferes session next := by
  have target_eq := target_react waitSignal outcome (session.report rest target outcome)
  have history := history_react waitSignal outcome (session.report rest target outcome)
  have events := events_of_react reaction
  rw [reaction] at target_eq history
  refine ⟨[event], [outcome], ?_, history.1, .answered (Std.Refl.refl _) reported (.own ?_)⟩
  · rw [events, coming]
    rfl
  · rw [target_eq]
    exact Std.Refl.refl _

theorem wait [Std.Refl interferes] [IsTrans Target interferes] {waitSignal : Signal}
    {state : MDBProcessRunState}
    (returned : session.internalWait waitSignal = some (state, last)) :
    Interleaves interferes session last := by
  rcases internalWait_cases returned with ⟨-, -, rfl⟩ | ⟨-, next, looped, rfl⟩
  · exact refl _
  · suffices used : Interleaves interferes session next from used
    refine waitLoop_rule
      (fun events middle => middle.events = events ∧ Interleaves interferes session middle)
      (fun _ middle => Interleaves interferes session middle) ?_ ?_ ⟨rfl, refl session⟩ looped
    · rintro event rest middle target outcome next ⟨coming, earlier⟩ reported reaction
      exact ⟨events_of_react reaction, earlier.trans (iteration coming reported reaction)⟩
    · rintro event rest middle target outcome state next ⟨coming, earlier⟩ reported reaction
      exact earlier.trans (iteration coming reported reaction)

/-! ## Operations -/

/-- What is committed to a thread is what it has, with the edit, as the table is coherent. -/
theorem commit (coherent : Coherent session) {index : Nat} {thread : MDBThread}
    (present : session.process.threads[index]? = some thread)
    (edit : MDBThreadState32 → MDBThreadState32)
    (touched : RegisterFile.SameProgram stops (.state32 thread.state32)
      (.state32 (edit thread.state32))) :
    let process : MDBProcess := { session.process with
      threads := session.process.threads.modify index fun thread =>
        { thread with state32 := edit thread.state32 } }
    Interleaves (Target.SameProgram stops) session
      { session with process, target := process.machCommitThread session.target index } := by
  intro process
  refine own rfl rfl ?_
  have written : process.machCommitThread session.target index = _ :=
    MDBProcess.machCommitThread_modify present session.target edit
  rw [written]
  apply Target.SameProgram.threadSetState32
  intro registers read
  have entry := MDBProcess.entry_eq_of_getElem? coherent.distinct present
  have cached := coherent.current.state32 thread.thread registers read
  rw [entry] at cached
  rwa [← cached]

theorem enableSingleStep (coherent : Coherent session) (index : Nat) (flag : Bool) :
    Interleaves (Target.SameProgram stops) session (session.enableSingleStep index flag) := by
  cases present : session.process.threads[index]? with
  | none =>
      refine own rfl rfl ?_
      have absent : (session.process.threads.modify index fun thread =>
          { thread with state32 := thread.state32.withTrapFlag flag })[index]? = none := by
        simp [present]
      simp only [Session.enableSingleStep, MDBProcess.enableSingleStep,
        MDBProcess.machCommitThread, absent]
      exact .refl _
  | some thread =>
      refine commit coherent present (·.withTrapFlag flag) ?_
      exact .touched thread.state32 flag thread.state32.eip (Or.inl rfl)

theorem stepBackThread (coherent : Coherent session)
    (known : ∀ address, session.breakpointState.HasBreakpoint address → stops address)
    (index : Nat) :
    Interleaves (Target.SameProgram stops) session (session.stepBackThread index) := by
  simp only [Session.stepBackThread]
  split
  · exact refl session
  · rename_i thread present
    split
    · exact refl session
    · rename_i ref found
      have coherentNow : Coherent (session.onBreakpointReached thread.thread ref) :=
        ⟨coherent.narrow, coherent.distinct, coherent.current, coherent.events⟩
      have noted : Interleaves (Target.SameProgram stops) session
          (session.onBreakpointReached thread.thread ref) :=
        own rfl rfl (.refl _)
      apply noted.trans
      refine commit coherentNow present (fun state => { state with eip := state.eip + -1 }) ?_
      rcases deref_of_findEnabled found with ⟨breakpoint, pointed, -, here⟩
      have stop : stops ((thread.state32.eip - 1).setWidth 64) := by
        apply known
        rw [← here]
        exact hasBreakpoint_of_deref pointed
      have touched := RegisterFile.SameProgram.touched thread.state32 thread.state32.trapFlag
        (thread.state32.eip - 1) (Or.inr stop)
      rwa [MDBThreadState32.withTrapFlag_trapFlag, BitVec.sub_eq_add_neg] at touched

theorem operation (coherent : Coherent session)
    (known : ∀ address, session.breakpointState.HasBreakpoint address → stops address)
    (operation : Operation session next) : Interleaves (Target.SameProgram stops) session next := by
  cases operation with
  | access => exact own rfl rfl (.refl _)
  | enable ref flag =>
      refine own rfl rfl ?_
      refine ⟨?_, rfl, rfl, fun port => .same _⟩
      intro address elsewhere
      apply memory_enable
      exact fun has => elsewhere (known address has)
  | deleteTransientBreakpoints deleted =>
      simp only [Session.deleteTransientBreakpoints, Option.ite_none_left_eq_some,
        Option.some.injEq] at deleted
      rcases deleted with ⟨-, rfl⟩
      exact own rfl rfl (.refl _)
  | enableSingleStep index flag => exact enableSingleStep coherent index flag
  | stepBackThread index => exact stepBackThread coherent known index
  | machSuspendAllThreads =>
      exact own rfl rfl (.of_sameExecution (MDBProcess.sameExecution_machSuspendAllThreads ..))
  | machResumeThread index =>
      simp only [Session.machResumeThread]
      split
      · exact own rfl rfl (.of_sameExecution (Target.sameExecution_machResumeThread ..))
      · exact refl session
  | machResumeTask =>
      exact own rfl rfl (.of_sameExecution (Target.sameExecution_machResumeTask _))
  | machResumeThreadsAndTask =>
      exact own rfl rfl (.of_sameExecution (MDBProcess.sameExecution_resumeThreads ..))

theorem createBreakpoint (session : Session) (address : Address) :
    Interleaves (Target.SameProgram stops) session (session.createBreakpoint address).2 :=
  own rfl rfl (.refl _)

end Interleaves

/--
In every run of commands, whatever the waits report and whichever accesses fail, the events that
are used are used once each and in order, all of their outcomes are noted, and each of them takes
place on the memory, threads and registers as the one before left them but for bytes at the
addresses of breakpoints, trap flags, and threads that were put back to such an address.
-/
theorem run_interleaves {start : Session} {commands : List Command} (coherent : Coherent start)
    (noTransient : start.transientBreakpoints = [])
    (reached : Transition.run (perform ud) start commands = some last) :
    Interleaves (Target.SameProgram last.breakpointState.HasBreakpoint) start last := by
  have invariant : Coherent last ∧
      Interleaves (Target.SameProgram last.breakpointState.HasBreakpoint) start last := by
    refine invariant_of_run_known (fun session => Coherent session ∧
      Interleaves (Target.SameProgram last.breakpointState.HasBreakpoint) start session)
      ?_ ?_ ?_ noTransient (fun _ has => has) ⟨coherent, .refl start⟩ reached
    · rintro before after located operation ⟨coherent, earlier⟩
      refine ⟨coherent.operation operation, ?_⟩
      exact earlier.trans (.operation coherent located.known operation)
    · rintro before state after - returned ⟨coherent, earlier⟩
      exact ⟨coherent.wait returned, earlier.trans (.wait returned)⟩
    · rintro before address - ⟨coherent, earlier⟩
      exact ⟨coherent.createBreakpoint address, earlier.trans (.createBreakpoint before address)⟩
  exact invariant.2

/-- A step off a breakpoint uses the only event there is. -/
theorem run_interleaves_oneStanding :
    ∃ last, Transition.run (perform fun _ => ⟨1, .other 0⟩) oneStanding [.step 0] = some last ∧
      Interleaves (Target.SameProgram last.breakpointState.HasBreakpoint) oneStanding last := by
  obtain ⟨last, reached⟩ : ∃ last,
      Transition.run (perform fun _ => ⟨1, .other 0⟩) oneStanding [.step 0] = some last :=
    Option.isSome_iff_exists.mp (by decide)
  exact ⟨last, reached, run_interleaves coherent_oneStanding rfl reached⟩

end Session

end RustDbg
