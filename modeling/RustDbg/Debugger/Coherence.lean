import RustDbg.Debugger.Operations
import RustDbg.Debugger.StepBack
import RustDbg.Debugger.StepOff
import RustDbg.Process.Visitors

/-!
# Cached registers

The debugger writes the registers of a thread back as it has cached them. It does no harm
because the caches of a 32-bit process agree with the threads whenever it does so: every wait
ends with a gathering of all threads, and what is written is written to both.
-/

namespace RustDbg

namespace MDBProcess

/-- Every live thread is in the table, with the registers it has. -/
structure Current (process : MDBProcess) (target : Target) : Prop where
  listed : ∀ port ∈ target.live, port ∈ process.ports
  state32 : ∀ port registers, target.threadGetState32 port = some registers →
    (process.entry port).state32 = registers

variable {process : MDBProcess} {target : Target} {index : Nat}

theorem Current.gatherThreads (narrow : process.is64Bit = false) (target : Target) :
    (process.gatherThreads target).Current target where
  listed port live := by
    apply mem_ports_gatherThreads.mpr
    exact Or.inr live
  state32 port registers current := by
    have live := (Target.threadGetState32_eq_some_iff.mp current).1
    simp [entry_gatherThreads, live, MDBThread.update, narrow, current]

/-- Committing an entry that has been edited writes the edited registers to its thread. -/
theorem machCommitThread_modify {thread : MDBThread}
    (present : process.threads[index]? = some thread) (target : Target)
    (edit : MDBThreadState32 → MDBThreadState32) :
    machCommitThread { process with
        threads := process.threads.modify index fun thread =>
          { thread with state32 := edit thread.state32 } } target index =
      target.threadSetState32 thread.thread (edit thread.state32) := by
  simp only [machCommitThread, getElem?_modify_self present]

/-- What is changed in the table and in the thread alike stays in agreement. -/
theorem Current.threadSetState32 (distinct : process.ports.Nodup)
    (current : process.Current target) {thread : MDBThread}
    (present : process.threads[index]? = some thread)
    (edit : MDBThreadState32 → MDBThreadState32) :
    Current { process with
        threads := process.threads.modify index fun thread =>
          { thread with state32 := edit thread.state32 } }
      (target.threadSetState32 thread.thread (edit thread.state32)) where
  listed port live := by
    have ports : ({ process with
        threads := process.threads.modify index fun thread =>
          { thread with state32 := edit thread.state32 } } : MDBProcess).ports =
        process.ports := by
      refine map_thread_modify ?_ index
      exact fun _ => rfl
    rw [Target.threadSetState32, Target.live_modifyThread] at live
    rw [ports]
    exact current.listed port live
  state32 port registers read := by
    have entry : ({ process with
        threads := process.threads.modify index fun thread =>
          { thread with state32 := edit thread.state32 } } : MDBProcess).entry port =
        if port = thread.thread then { thread with state32 := edit thread.state32 }
        else process.entry port := by
      refine entry_modify ?_ distinct present
      exact fun _ => rfl
    rw [Session.threadGetState32_threadSetState32] at read
    rw [entry]
    split
    · rename_i same
      rw [if_pos same, Option.map_eq_some_iff] at read
      rcases read with ⟨_, _, rfl⟩
      rfl
    · rename_i different
      rw [if_neg different] at read
      exact current.state32 port registers read

/-- A commit writes what it has changed in the table to the thread as well. -/
theorem Current.commit (distinct : process.ports.Nodup) (current : process.Current target)
    (index : Nat) (edit : MDBThreadState32 → MDBThreadState32) :
    let committed : MDBProcess := { process with
      threads := process.threads.modify index fun thread =>
        { thread with state32 := edit thread.state32 } }
    committed.Current (committed.machCommitThread target index) := by
  intro committed
  cases present : process.threads[index]? with
  | none =>
      have absent : committed.threads[index]? = none := by
        simp [committed, present]
      have same : committed = process := by
        simp only [committed]
        rw [List.modify_eq_self (List.getElem?_eq_none_iff.mp present)]
      simp only [machCommitThread, absent]
      exact same ▸ current
  | some thread =>
      have written := machCommitThread_modify present target edit
      rw [written]
      exact current.threadSetState32 distinct present edit

theorem Current.sameExecution {after : Target} (current : process.Current target)
    (same : target.SameExecution after) : process.Current after where
  listed := by
    rw [same.live]
    exact current.listed
  state32 port registers read := by
    apply current.state32 port
    rwa [Session.threadGetState32_congr same.live (same.registers port)] at read

end MDBProcess

/-- No thread is left when the exit of the target is reported. -/
def WaitEvent.EndsThreads (event : WaitEvent) : Prop :=
  ∀ target after code, event target = some (after, .exited code) → after.live = []

namespace Session

variable {session next last : Session} {waitSignal : Signal} {state : MDBProcessRunState}

/-- The table of a 32-bit process agrees with the target and will do so after every wait. -/
structure Coherent (session : Session) : Prop where
  narrow : session.process.is64Bit = false
  distinct : session.process.ports.Nodup
  current : session.process.Current session.target
  events : ∀ event ∈ session.events, event.EndsThreads

namespace Coherent

theorem commit (coherent : Coherent session) (index : Nat)
    (edit : MDBThreadState32 → MDBThreadState32) :
    let process : MDBProcess := { session.process with
      threads := session.process.threads.modify index fun thread =>
        { thread with state32 := edit thread.state32 } }
    Coherent { session with process, target := process.machCommitThread session.target index } where
  narrow := coherent.narrow
  distinct := by
    have ports := (Quiet.commit session index edit).ports
    simp only [ports]
    exact coherent.distinct
  current := coherent.current.commit coherent.distinct index edit
  events := coherent.events

theorem sameExecution (coherent : Coherent session) {target : Target}
    (same : session.target.SameExecution target) : Coherent { session with target } :=
  ⟨coherent.narrow, coherent.distinct, coherent.current.sameExecution same, coherent.events⟩

theorem operation (coherent : Coherent session) (operation : Operation session next) :
    Coherent next := by
  rcases coherent with ⟨narrow, distinct, current, events⟩
  have coherent : Coherent session := ⟨narrow, distinct, current, events⟩
  cases operation with
  | access => exact ⟨narrow, distinct, current, events⟩
  | enable ref flag => exact ⟨narrow, distinct, ⟨current.listed, current.state32⟩, events⟩
  | deleteTransientBreakpoints deleted =>
      simp only [Session.deleteTransientBreakpoints, Option.ite_none_left_eq_some,
        Option.some.injEq] at deleted
      rcases deleted with ⟨-, rfl⟩
      exact ⟨narrow, distinct, current, events⟩
  | enableSingleStep index flag => exact coherent.commit index (·.withTrapFlag flag)
  | stepBackThread index =>
      simp only [Session.stepBackThread]
      split
      · exact coherent
      · rename_i thread present
        split
        · exact coherent
        · rename_i ref found
          have reached : Coherent (session.onBreakpointReached thread.thread ref) :=
            ⟨narrow, distinct, current, events⟩
          exact reached.commit index fun state => { state with eip := state.eip + -1 }
  | machSuspendAllThreads =>
      exact coherent.sameExecution (MDBProcess.sameExecution_machSuspendAllThreads ..)
  | machResumeThread index =>
      simp only [Session.machResumeThread]
      split
      · exact coherent.sameExecution (Target.sameExecution_machResumeThread ..)
      · exact coherent
  | machResumeTask => exact coherent.sameExecution (Target.sameExecution_machResumeTask _)
  | machResumeThreadsAndTask =>
      exact coherent.sameExecution (MDBProcess.sameExecution_resumeThreads ..)

/-- An iteration that ends the wait has gathered the threads, if there are any left. -/
theorem current_react {outcome : WaitOutcome} (narrow : session.process.is64Bit = false)
    (ended : ∀ code, outcome = .exited code → session.target.live = [])
    (reaction : react waitSignal outcome session = (some state, next)) :
    next.process.Current next.target := by
  have gathered := MDBProcess.Current.gatherThreads narrow session.target
  have stillNarrow : (session.process.gatherThreads session.target).is64Bit = false :=
    MDBProcess.is64Bit_gatherThreads.trans narrow
  have regathered := MDBProcess.Current.gatherThreads stillNarrow session.target
  cases outcome with
  | failed errno =>
      simp only [react] at reaction
      split at reaction
      · cases reaction
      · rcases Prod.mk.inj reaction with ⟨-, rfl⟩
        exact gathered
  | exited code =>
      rcases Prod.mk.inj reaction with ⟨-, rfl⟩
      have gone := ended code rfl
      constructor
      · intro port live
        rw [gone] at live
        cases live
      · intro port registers read
        have live := (Target.threadGetState32_eq_some_iff.mp read).1
        rw [gone] at live
        cases live
  | signaled signal =>
      rcases Prod.mk.inj reaction with ⟨-, rfl⟩
      exact gathered
  | stopped signal continueError =>
      simp only [react] at reaction
      split at reaction
      · rcases Prod.mk.inj reaction with ⟨-, rfl⟩
        exact gathered
      · split at reaction
        · rcases Prod.mk.inj reaction with ⟨-, rfl⟩
          exact regathered
        · cases reaction

/-- A wait may see any stops and threads come and go in between. -/
theorem wait (coherent : Coherent session)
    (returned : session.internalWait waitSignal = some (state, last)) : Coherent last := by
  have same := (SameSettings.internalWait returned).process
  rcases internalWait_cases returned with ⟨-, -, rfl⟩ | ⟨-, next, looped, rfl⟩
  · exact ⟨coherent.narrow, coherent.distinct, coherent.current, coherent.events⟩
  · suffices ended : next.process.Current next.target ∧
        ∀ event ∈ next.events, event.EndsThreads from
      ⟨same.is64Bit.trans coherent.narrow, same.distinct coherent.distinct, ended.1, ended.2⟩
    refine waitLoop_rule
      (fun events middle => middle.process.is64Bit = false ∧
        ∀ event ∈ events, event.EndsThreads)
      (fun _ middle => middle.process.Current middle.target ∧
        ∀ event ∈ middle.events, event.EndsThreads) ?_ ?_
      ⟨coherent.narrow, coherent.events⟩ looped
    · rintro event rest middle target outcome next ⟨narrow, events⟩ reported reaction
      have kept := (SameSettings.iteration (.refl middle) reaction).process.is64Bit
      refine ⟨kept.trans narrow, fun event mem => events event (.tail _ mem)⟩
    · rintro event rest middle target outcome state next ⟨narrow, events⟩ reported reaction
      refine ⟨?_, ?_⟩
      · refine current_react ?_ ?_ reaction
        · exact narrow
        · rintro code rfl
          exact events event List.mem_cons_self _ _ _ reported
      · rw [events_of_react reaction]
        exact fun event mem => events event (.tail _ mem)

theorem createBreakpoint (coherent : Coherent session) (address : Address) :
    Coherent (session.createBreakpoint address).2 :=
  ⟨coherent.narrow, coherent.distinct, ⟨coherent.current.listed, coherent.current.state32⟩,
    coherent.events⟩

theorem operates (coherent : Coherent session) (operates : Operates session next) :
    Coherent next :=
  operates.preserves Coherent (fun _ _ operation coherent => coherent.operation operation)
    (fun _ _ _ returned coherent => coherent.wait returned) coherent

theorem run (coherent : Coherent session) {ud : Udis86} {commands : List Command}
    (reached : Transition.run (perform ud) session commands = some last) : Coherent last := by
  refine invariant_of_run Coherent ?_ ?_ ?_ coherent reached
  · exact fun _ _ operation coherent => coherent.operation operation
  · exact fun _ _ _ returned coherent => coherent.wait returned
  · exact fun _ address coherent => coherent.createBreakpoint address

end Coherent

/--
In every session that commands lead to from a coherent one, whatever the waits have reported and
whichever accesses have failed, each live thread is in the table at one place, and if it is a
32-bit thread its registers are cached there as they are.
-/
theorem cached_of_run {start : Session} {ud : Udis86} {commands : List Command}
    (coherent : Coherent start)
    (reached : Transition.run (perform ud) start commands = some last) :
    ∀ port ∈ last.target.live, ∃ (index : Nat) (thread : MDBThread),
      last.process.threads[index]? = some thread ∧ thread.thread = port ∧
      (∀ (other : Nat) thread', last.process.threads[other]? = some thread' →
        thread'.thread = port → other = index) ∧
      ∀ registers, (last.target.thread port).registers = .state32 registers →
        thread.state32 = registers := by
  intro port live
  rcases coherent.run reached with ⟨-, distinct, current, -⟩
  rcases List.mem_map.mp (current.listed port live) with ⟨thread, mem, rfl⟩
  rcases List.getElem?_of_mem mem with ⟨index, present⟩
  refine ⟨index, thread, present, rfl, ?_, ?_⟩
  · intro other thread' presentOther same
    have first := Lookup.findIdx?_of_nodup distinct present
    have second := Lookup.findIdx?_of_nodup distinct presentOther
    rw [same, first] at second
    exact (Option.some.inj second).symm
  · intro registers registers_eq
    have read := Target.threadGetState32_eq_some_iff.mpr ⟨live, registers_eq⟩
    have cached := current.state32 thread.thread registers read
    rwa [MDBProcess.entry_eq_of_getElem? distinct present] at cached

theorem coherent_oneStanding : Coherent oneStanding := by
  refine ⟨rfl, by decide, ⟨fun port live => live, ?_⟩, ?_⟩
  · intro port registers read
    rcases Target.threadGetState32_eq_some_iff.mp read with ⟨live, current⟩
    rcases List.mem_cons.mp live with rfl | second
    · exact RegisterFile.state32.inj current
    · rcases List.mem_singleton.mp second with rfl
      exact RegisterFile.state32.inj current
  · intro event mem target after code reported
    rcases List.mem_singleton.mp mem with rfl
    simp at reported

theorem cached_of_run_oneStanding :
    ∃ last, Transition.run (perform fun _ => ⟨1, .other 0⟩) oneStanding [.step 0] = some last ∧
      ∀ port ∈ last.target.live, ∃ (index : Nat) (thread : MDBThread),
        last.process.threads[index]? = some thread ∧ thread.thread = port ∧
        (∀ (other : Nat) thread', last.process.threads[other]? = some thread' →
          thread'.thread = port → other = index) ∧
        ∀ registers, (last.target.thread port).registers = .state32 registers →
          thread.state32 = registers := by
  obtain ⟨last, reached⟩ : ∃ last,
      Transition.run (perform fun _ => ⟨1, .other 0⟩) oneStanding [.step 0] = some last :=
    Option.isSome_iff_exists.mp (by decide)
  exact ⟨last, reached, cached_of_run coherent_oneStanding reached⟩

/-! ## The trap flag without the thread table -/

/-- A flag is set in the cached registers as it is in those that the thread has. -/
theorem Coherent.target_enableSingleStep (coherent : Coherent session) {index : Nat}
    {thread : MDBThread} (present : session.process.threads[index]? = some thread) (flag : Bool) :
    (session.enableSingleStep index flag).target =
      (Target.setSingleStep flag session.target thread.thread).2 := by
  rw [enableSingleStep_eq present]
  simp only [Target.setSingleStep]
  split
  · rename_i absent
    exact Target.setSingleStep_eq_of_none absent _
  · rename_i registers read
    have entry := MDBProcess.entry_eq_of_getElem? coherent.distinct present
    have cached := coherent.current.state32 thread.thread registers read
    rw [entry] at cached
    rw [cached]

/--
In every session that commands lead to from a coherent one, `enableSingleStep` on a thread of the
table does to the target what `setSingleStep` does, which reads the registers of the thread first.
-/
theorem setSingleStep_agrees_of_run {start : Session} {ud : Udis86} {commands : List Command}
    (coherent : Coherent start)
    (reached : Transition.run (perform ud) start commands = some last) (flag : Bool) :
    ∀ (index : Nat) thread, last.process.threads[index]? = some thread →
      (last.enableSingleStep index flag).target =
        (Target.setSingleStep flag last.target thread.thread).2 := by
  have coherentLast := coherent.run reached
  exact fun index thread present => coherentLast.target_enableSingleStep present flag

theorem setSingleStep_agrees_of_run_oneStanding :
    ∃ last, Transition.run (perform fun _ => ⟨1, .other 0⟩) oneStanding [.step 0] = some last ∧
      ∀ (index : Nat) thread, last.process.threads[index]? = some thread →
        (last.enableSingleStep index true).target =
          (Target.setSingleStep true last.target thread.thread).2 := by
  obtain ⟨last, reached⟩ : ∃ last,
      Transition.run (perform fun _ => ⟨1, .other 0⟩) oneStanding [.step 0] = some last :=
    Option.isSome_iff_exists.mp (by decide)
  exact ⟨last, reached, setSingleStep_agrees_of_run coherent_oneStanding reached true⟩

end Session

end RustDbg
