import RustDbg.Breakpoint.Hiding
import RustDbg.Debugger.Machine
import RustDbg.Debugger.StepBack

/-!
# One turn of stepping off a breakpoint

`MDBDebugger::checkForBreakpointsAndStep` gives a turn to every thread that stands at an
enabled breakpoint: it disables the breakpoint, suspends all other threads, lets the
thread execute one instruction and enables the breakpoint again. The file says what one
turn does, whatever the suspend counts were before, and what it leaves for the next one.
-/

namespace RustDbg

/-! ## One instruction -/

/-- What a processor can make of one instruction, and how many bytes the instruction has. -/
structure Processor where
  executes : ProgramState → ProgramState → Prop
  instructionLength : ProgramState → Nat

/-- One thread of the task can run, no other, and it will trap after one instruction. -/
structure Target.SingleSteps (target : Target) (port : ThreadPort)
    (registers : MDBThreadState32) : Prop where
  taskRuns : target.suspendCount = 0
  live : port ∈ target.live
  alone : ∀ other ∈ target.live, target.threadSuspendCount other = 0 ↔ other = port
  current : (target.thread port).registers = .state32 registers
  flagged : registers.trapFlag = true

/-- A thread has executed one instruction, and of the other ones none has. -/
structure Processor.Executed (processor : Processor) (port : ThreadPort)
    (registers registers' : MDBThreadState32) (before after : Target) : Prop where
  live : after.live = before.live
  own : (after.thread port).registers = .state32 registers'
  executes : processor.executes ⟨registers, before.memory⟩ ⟨registers', after.memory⟩
  others : ∀ other, other ≠ port →
    (after.thread other).registers = (before.thread other).registers

/-- A stop comes of one instruction of the thread that can run, which writes to no breakpoint. -/
structure Processor.Stops (processor : Processor) (before after : Session) : Prop where
  /-- A task does not stop if none of its threads can run. -/
  able : ∃ port ∈ before.target.live, before.target.threadSuspendCount port = 0
  executed : ∀ port registers, before.target.SingleSteps port registers →
    ∃ registers', processor.Executed port registers registers' before.target after.target
  untouched : ∀ breakpoint ∈ before.breakpoints,
    after.target.memory breakpoint.address = before.target.memory breakpoint.address

namespace Session

variable {processor : Processor} {session prepared stopped last : Session} {index : Nat}
  {thread : MDBThread} {port : ThreadPort} {registers : MDBThreadState32} {ref : BreakpointRef}
  {address : Address}

/-! ## The loop -/

/-- A turn of a thread: the session in which it is let run and the one in which it has stopped. -/
structure Turn where
  port : ThreadPort
  prepared : Session
  stopped : Session

/-- No breakpoint is inside the instruction that is executed in the turn. -/
def Turn.Whole (processor : Processor) (breakpoints : List MDBBreakpoint) (turn : Turn) : Prop :=
  ∀ registers, (turn.prepared.target.thread turn.port).registers = .state32 registers →
    ∀ breakpoint ∈ breakpoints, breakpoint.enabled = true → ∀ offset, 0 < offset →
      offset < processor.instructionLength ⟨registers, turn.prepared.target.memory⟩ →
        breakpoint.address ≠ registers.pc + BitVec.ofNat 64 offset

/-- Wherever a breakpoint is in the instruction executed in the turn, the byte is the saved one. -/
def Turn.FetchesSaved (processor : Processor) (breakpoints : List MDBBreakpoint) (turn : Turn) :
    Prop :=
  ∀ registers, (turn.prepared.target.thread turn.port).registers = .state32 registers →
    ∀ breakpoint ∈ breakpoints, breakpoint.enabled = true → ∀ offset,
      offset < processor.instructionLength ⟨registers, turn.prepared.target.memory⟩ →
        breakpoint.address = registers.pc + BitVec.ofNat 64 offset →
          turn.prepared.target.memory breakpoint.address = breakpoint.patch

/-- The same of the breakpoints behind the first byte of the instruction. -/
def Turn.FetchesSavedBehind (processor : Processor) (breakpoints : List MDBBreakpoint)
    (turn : Turn) : Prop :=
  ∀ registers, (turn.prepared.target.thread turn.port).registers = .state32 registers →
    ∀ breakpoint ∈ breakpoints, breakpoint.enabled = true → ∀ offset, 0 < offset →
      offset < processor.instructionLength ⟨registers, turn.prepared.target.memory⟩ →
        breakpoint.address = registers.pc + BitVec.ofNat 64 offset →
          turn.prepared.target.memory breakpoint.address = breakpoint.patch

theorem Turn.Whole.fetchesSavedBehind {breakpoints : List MDBBreakpoint} {turn : Turn}
    (whole : turn.Whole processor breakpoints) :
    turn.FetchesSavedBehind processor breakpoints := by
  intro registers current breakpoint mem enabled offset positive within here
  apply absurd here
  exact whole registers current breakpoint mem enabled offset positive within

/-- With the byte where the thread stands, the whole instruction is fetched as it was saved. -/
theorem Turn.FetchesSavedBehind.fetchesSaved {breakpoints : List MDBBreakpoint} {turn : Turn}
    (behind : turn.FetchesSavedBehind processor breakpoints)
    (current : (turn.prepared.target.thread turn.port).registers =
      .state32 (registers.withTrapFlag true))
    (fetched : ∀ breakpoint ∈ breakpoints, breakpoint.enabled = true →
      breakpoint.address = registers.pc →
        turn.prepared.target.memory registers.pc = breakpoint.patch) :
    turn.FetchesSaved processor breakpoints := by
  intro fetching currentNow breakpoint mem enabled offset within here
  rcases Nat.eq_zero_or_pos offset with rfl | positive
  · simp only [current, RegisterFile.state32.injEq] at currentNow
    subst currentNow
    have at_pc : breakpoint.address = registers.pc := by
      rw [here]
      exact BitVec.add_zero _
    rw [at_pc]
    exact fetched breakpoint mem enabled at_pc
  · exact behind fetching currentNow breakpoint mem enabled offset positive within here

/--
The loop of `checkForBreakpointsAndStep` from a position of the table on, with the turns
it gives, when each of its waits ends with a stop after one instruction.
-/
inductive TakesTurns (processor : Processor) : Session → Nat → List Turn → Session → Prop where
  | done {session : Session} {index : Nat} (outside : session.process.threads.length ≤ index) :
      TakesTurns processor session index [] session
  | pass {session last : Session} {index : Nat} {thread : MDBThread} {turns : List Turn}
      (present : session.process.threads[index]? = some thread)
      (clear : session.findEnabled thread.state32.pc = none)
      (rest : TakesTurns processor session (index + 1) turns last) :
      TakesTurns processor session index turns last
  | turn {session prepared stopped last : Session} {index : Nat} {thread : MDBThread}
      {ref : BreakpointRef} {turns : List Turn}
      (present : session.process.threads[index]? = some thread)
      (found : session.findEnabled thread.state32.pc = some ref)
      (preparation : (session.disable ref).singleStepToWait index = prepared)
      (waited : prepared.internalWait SIG_TRAP = some (.PRS_STOPPED, stopped))
      (stops : processor.Stops prepared stopped)
      (rest : TakesTurns processor ((stopped.enableSingleStep index false).enable ref true)
        (index + 1) turns last) :
      TakesTurns processor session index (⟨thread.thread, prepared, stopped⟩ :: turns) last

theorem TakesTurns.stepOffFrom_eq {turns : List Turn}
    (run : TakesTurns processor session index turns last) :
    session.stepOffFrom index = some last := by
  induction run with
  | done outside => exact stepOffFrom_of_le outside
  | pass present clear _ ih =>
      simp only [stepOffFrom_of_getElem? present, clear]
      exact ih
  | turn present found preparation waited _ _ ih =>
      simp only [stepOffFrom_of_getElem? present, found]
      simp only [stepOff, preparation, waited, Option.bind_eq_bind, Option.bind_some, if_true,
        Option.pure_def]
      exact ih

/-! ## Preparing a single step -/

/-- The target is a 32-bit one, all of its threads are in the table and all accesses succeed. -/
structure Steppable (session : Session) : Prop where
  noTransient : session.transientBreakpoints = []
  accesses : session.accesses = []
  distinct : session.process.ports.Nodup
  listed : ∀ port ∈ session.target.live, port ∈ session.process.ports
  wide : ∀ port ∈ session.target.live, ∃ registers,
    (session.target.thread port).registers = .state32 registers

/-- The registers of a thread are cached as they are. -/
structure CachedAt (session : Session) (port : ThreadPort) (registers : MDBThreadState32) :
    Prop where
  current : (session.target.thread port).registers = .state32 registers
  cached : (session.process.entry port).state32 = registers

/-- What setting or clearing the trap flag of a thread does. -/
theorem enableSingleStep_eq (present : session.process.threads[index]? = some thread)
    (flag : Bool) :
    session.enableSingleStep index flag =
      { session with
        process := { session.process with
          threads := session.process.threads.modify index fun thread =>
            { thread with state32 := thread.state32.withTrapFlag flag } }
        target := session.target.threadSetState32 thread.thread
          (thread.state32.withTrapFlag flag) } := by
  simp [enableSingleStep, MDBProcess.enableSingleStep, MDBProcess.machCommitThread, present]

theorem entry_enableSingleStep (distinct : session.process.ports.Nodup)
    (present : session.process.threads[index]? = some thread) (flag : Bool) (other : ThreadPort) :
    (session.enableSingleStep index flag).process.entry other =
      if other = thread.thread then { thread with state32 := thread.state32.withTrapFlag flag }
      else session.process.entry other := by
  refine MDBProcess.entry_modify ?_ distinct present
  exact fun _ => rfl

theorem registers_threadSetState32_of_ne (target : Target) {other : ThreadPort}
    (different : other ≠ port) :
    ((target.threadSetState32 port registers).thread other).registers =
      (target.thread other).registers := by
  simp only [Target.threadSetState32, Target.thread_modifyThread_of_ne _ different]

/-- A commit to one thread leaves the caches of the others as they are. -/
theorem CachedAt.enableSingleStep_of_ne {other : ThreadPort} {cached : MDBThreadState32}
    (cachedAt : CachedAt session other cached) (distinct : session.process.ports.Nodup)
    (present : session.process.threads[index]? = some thread) (different : other ≠ thread.thread)
    (flag : Bool) : CachedAt (session.enableSingleStep index flag) other cached := by
  constructor
  · rw [enableSingleStep_eq present]
    exact (registers_threadSetState32_of_ne _ different).trans cachedAt.current
  · simp only [entry_enableSingleStep distinct present, if_neg different]
    exact cachedAt.cached

theorem cachedAt_enableSingleStep (distinct : session.process.ports.Nodup)
    (present : session.process.threads[index]? = some thread)
    (live : thread.thread ∈ session.target.live)
    (current : (session.target.thread thread.thread).registers = .state32 registers)
    (flag : Bool) : CachedAt (session.enableSingleStep index flag) thread.thread
      (thread.state32.withTrapFlag flag) := by
  constructor
  · simp only [enableSingleStep_eq present, Target.registers_threadSetState32 live, current]
  · rw [entry_enableSingleStep distinct present, if_pos rfl]

/-- Before the wait of a turn its thread, and it alone, is ready to execute one instruction. -/
structure Prepared (before prepared : Session) (thread : MDBThread) : Prop where
  singleSteps : prepared.target.SingleSteps thread.thread (thread.state32.withTrapFlag true)
  others : ∀ other, other ≠ thread.thread →
    (prepared.target.thread other).registers = (before.target.thread other).registers
  caches : ∀ other, other ≠ thread.thread →
    prepared.process.entry other = before.process.entry other

theorem singleStepToWait_eq (present : session.process.threads[index]? = some thread) :
    session.singleStepToWait index =
      { session.enableSingleStep index true with
        target := (session.enableSingleStep index true).process.runningAlone
          (session.enableSingleStep index true).target thread.thread } := by
  have presentNow : (session.enableSingleStep index true).process.threads[index]? = some
      { thread with state32 := thread.state32.withTrapFlag true } :=
    MDBProcess.getElem?_modify_self present
  have resumed :
      (session.enableSingleStep index true).machSuspendAllThreads.process.threads[index]? =
        some { thread with state32 := thread.state32.withTrapFlag true } := presentNow
  simp only [singleStepToWait, machResumeThread, resumed]
  rfl

theorem prepared_singleStepToWait (steppable : Steppable session)
    (present : session.process.threads[index]? = some thread)
    (live : thread.thread ∈ session.target.live) :
    Prepared session (session.singleStepToWait index) thread := by
  rcases steppable.wide thread.thread live with ⟨registers, current⟩
  have quiet := Quiet.enableSingleStep session index true
  have committed := cachedAt_enableSingleStep steppable.distinct present live current true
  have listed : ∀ port ∈ (session.enableSingleStep index true).target.live,
      port ∈ (session.enableSingleStep index true).process.ports := by
    simp only [quiet.live, quiet.ports]
    exact steppable.listed
  have same := MDBProcess.sameExecution_runningAlone (session.enableSingleStep index true).process
    (session.enableSingleStep index true).target thread.thread
  rw [singleStepToWait_eq present]
  refine ⟨⟨?_, ?_, ?_, ?_, ?_⟩, ?_, ?_⟩
  · exact MDBProcess.suspendCount_runningAlone _ _ _
  · simp only [same.live, quiet.live]
    exact live
  · intro other otherLive
    simp only [same.live] at otherLive
    exact MDBProcess.threadSuspendCount_runningAlone listed otherLive
  · exact (same.registers thread.thread).trans committed.current
  · exact MDBThreadState32.trapFlag_withTrapFlag _ _
  · intro other different
    apply (same.registers other).trans
    rw [enableSingleStep_eq present]
    exact registers_threadSetState32_of_ne _ different
  · intro other different
    apply (entry_enableSingleStep steppable.distinct present true other).trans
    exact if_neg different

/-- In the turn of an exited thread, nothing can run. -/
theorem live_of_able (steppable : Steppable session)
    (present : session.process.threads[index]? = some thread)
    (able : ∃ port ∈ (session.singleStepToWait index).target.live,
      (session.singleStepToWait index).target.threadSuspendCount port = 0) :
    thread.thread ∈ session.target.live := by
  rcases able with ⟨port, live, runnable⟩
  have quiet := Quiet.enableSingleStep session index true
  have listed : ∀ port ∈ (session.enableSingleStep index true).target.live,
      port ∈ (session.enableSingleStep index true).process.ports := by
    simp only [quiet.live, quiet.ports]
    exact steppable.listed
  simp only [(Quiet.singleStepToWait session index).live] at live
  simp only [singleStepToWait_eq present] at runnable
  have same := (MDBProcess.threadSuspendCount_runningAlone listed (quiet.live ▸ live)).mp runnable
  rw [← same]
  exact live

/-! ## The stop -/

theorem isPrefix_ports_react (waitSignal : Signal) (outcome : WaitOutcome) (session : Session) :
    session.process.ports <+: (react waitSignal outcome session).2.process.ports := by
  have gathered : session.process.ports <+: session.gatherThreads.process.ports :=
    MDBProcess.isPrefix_ports_gatherThreads
  cases outcome with
  | failed errno =>
      simp only [react]
      split
      · exact List.prefix_rfl
      · exact gathered
  | exited code => exact List.prefix_rfl
  | signaled signal => exact gathered
  | stopped signal continueError =>
      simp only [react]
      split
      · exact gathered
      · split
        · exact gathered.trans MDBProcess.isPrefix_ports_gatherThreads
        · exact gathered

/-- A wait appends to the thread table. -/
theorem isPrefix_ports_internalWait {waitSignal : Signal} {state : MDBProcessRunState}
    (returned : session.internalWait waitSignal = some (state, last)) :
    session.process.ports <+: last.process.ports := by
  refine internalWait_invariant (fun _ => True)
    (fun middle => session.process.ports <+: middle.process.ports) ?_ ?_ (fun _ _ => trivial)
    List.prefix_rfl returned
  · intro event rest middle target outcome _ earlier _
    apply earlier.trans
    exact isPrefix_ports_react waitSignal outcome (middle.report rest target outcome)
  · intro middle state earlier
    exact earlier

/-- At a stop the 32-bit caches are refreshed, unless the process is taken for a 64-bit one. -/
theorem state32_entry_of_live
    (waited : prepared.internalWait SIG_TRAP = some (.PRS_STOPPED, stopped))
    (live : port ∈ stopped.target.live)
    (current : (stopped.target.thread port).registers = .state32 registers) :
    (stopped.process.entry port).state32 =
      if prepared.process.is64Bit then (prepared.process.entry port).state32 else registers := by
  rcases gathered_of_stopped waited with ⟨process, gathered, stopped_eq⟩
  simp only [stopped_eq, MDBProcess.entry_gatherThreads, if_pos live]
  cases wide : prepared.process.is64Bit with
  | true =>
      rw [if_pos rfl, ← gathered.state32 wide port]
      simp [MDBThread.update, gathered.is64Bit, wide]
  | false =>
      simp [MDBThread.update, gathered.is64Bit, wide, Target.threadGetState32, live, current]

/-- A thread is still at its position in the table when the target has stopped. -/
theorem exists_thread_of_stopped (ports : prepared.process.ports = session.process.ports)
    (present : session.process.threads[index]? = some thread)
    (waited : prepared.internalWait SIG_TRAP = some (.PRS_STOPPED, stopped)) :
    ∃ thread', stopped.process.threads[index]? = some thread' ∧
      thread'.thread = thread.thread := by
  rcases isPrefix_ports_internalWait waited with ⟨new, grown⟩
  have port : session.process.ports[index]? = some thread.thread := by
    simp only [MDBProcess.ports, List.getElem?_map, present]
    rfl
  have bound := (List.getElem?_eq_some_iff.mp port).1
  simp only [ports] at grown
  rw [← List.getElem?_append_left bound, grown, MDBProcess.ports, List.getElem?_map,
    Option.map_eq_some_iff] at port
  exact port

theorem listed_of_stopped
    (waited : prepared.internalWait SIG_TRAP = some (.PRS_STOPPED, stopped))
    (live : port ∈ stopped.target.live) : port ∈ stopped.process.ports := by
  rcases gathered_of_stopped waited with ⟨process, _, stopped_eq⟩
  simp only [stopped_eq, MDBProcess.mem_ports_gatherThreads]
  exact Or.inr live

/-! ## One turn -/

theorem exists_of_findEnabled (noTransient : session.transientBreakpoints = [])
    (found : session.findEnabled address = some ref) :
    ∃ (position : Nat) (breakpoint : MDBBreakpoint), ref = .regular position ∧
      session.breakpoints[position]? = some breakpoint ∧ breakpoint.enabled = true ∧
      breakpoint.address = address := by
  rcases deref_of_findEnabled found with ⟨breakpoint, pointed, enabled, here⟩
  cases ref with
  | regular position => exact ⟨position, breakpoint, rfl, pointed, enabled, here⟩
  | transient position => simp [BreakpointState.deref, breakpointState, noTransient] at pointed

/-- The byte that breakpoints at an address have replaced is back, and no other has changed. -/
structure Unpatched (before prepared : Session) (address : Address) : Prop where
  fetched : ∀ breakpoint ∈ before.breakpoints, breakpoint.enabled = true →
    breakpoint.address = address → prepared.target.memory address = breakpoint.patch
  kept : ∀ other, other ≠ address →
    prepared.target.memory other = before.target.memory other
  others : ∀ breakpoint ∈ before.breakpoints, breakpoint.address ≠ address →
    breakpoint ∈ prepared.breakpoints

/-- What a turn leaves, for a thread that has been at a breakpoint. -/
structure TurnOver (before next : Session) (thread : MDBThread) : Prop where
  steppable : Steppable next
  is64Bit : next.process.is64Bit = before.process.is64Bit
  breakpoints : next.breakpoints = before.breakpoints
  live : next.target.live = before.target.live
  ports : before.process.ports <+: next.process.ports
  patched : next.target.memory thread.state32.pc = int_3
  untouched : ∀ breakpoint ∈ before.breakpoints, breakpoint.address ≠ thread.state32.pc →
    next.target.memory breakpoint.address = before.target.memory breakpoint.address
  registers : ∀ other, other ≠ thread.thread →
    (next.target.thread other).registers = (before.target.thread other).registers
  caches : ∀ other registers, other ≠ thread.thread → other ∈ before.target.live →
    CachedAt before other registers → CachedAt next other registers

theorem sameTables_enableSingleStep (present : session.process.threads[index]? = some thread)
    (flag : Bool) : SameTables session (session.enableSingleStep index flag) := by
  rw [enableSingleStep_eq present]
  exact .of_memory (Target.memory_modifyThread ..)

theorem sameTables_singleStepToWait (present : session.process.threads[index]? = some thread) :
    SameTables session (session.singleStepToWait index) := by
  have same := MDBProcess.sameExecution_runningAlone (session.enableSingleStep index true).process
    (session.enableSingleStep index true).target thread.thread
  rw [singleStepToWait_eq present]
  apply (sameTables_enableSingleStep present true).trans
  exact .of_memory same.memory

theorem quiet_of_preparation
    (preparation : (session.disable ref).singleStepToWait index = prepared) :
    Quiet session prepared := by
  rw [← preparation]
  apply (Quiet.disable session ref).trans
  exact .singleStepToWait _ index

theorem distinct_of_stopped (distinct : session.process.ports.Nodup)
    (quiet : Quiet session prepared)
    (waited : prepared.internalWait SIG_TRAP = some (.PRS_STOPPED, stopped)) :
    stopped.process.ports.Nodup := by
  apply (SameSettings.internalWait waited).process.distinct
  rw [quiet.ports]
  exact distinct

section Turn

variable {position : Nat} {breakpoint : MDBBreakpoint} (steppable : Steppable session)
  (agree : BreakpointState.PatchesAgree session.breakpoints)
  (present : session.process.threads[index]? = some thread)
  (here : session.breakpoints[position]? = some breakpoint) (enabled : breakpoint.enabled = true)
  (at_pc : breakpoint.address = thread.state32.pc)
  (preparation : (session.disable (.regular position)).singleStepToWait index = prepared)

include steppable here enabled

theorem steppable_disable : Steppable (session.disable (.regular position)) ∧
    (session.disable (.regular position)).breakpointState =
      session.breakpointState.switchedOff .success position breakpoint := by
  rcases breakpointState_enable steppable.accesses (.regular position) false with ⟨tables, accesses⟩
  have switched := tables.trans (BreakpointState.enable_false_of_enabled here enabled)
  refine ⟨⟨?_, accesses, steppable.distinct, steppable.listed, steppable.wide⟩, switched⟩
  exact (congrArg (·.transientBreakpoints) switched).trans steppable.noTransient

include present preparation

theorem tables_prepared : prepared.breakpointState =
    session.breakpointState.switchedOff .success position breakpoint ∧ prepared.accesses = [] := by
  rcases steppable_disable steppable here enabled with ⟨disabled, switched⟩
  have presentNow : (session.disable (.regular position)).process.threads[index]? = some thread :=
    present
  have tables := sameTables_singleStepToWait presentNow
  simp only [preparation] at tables
  exact ⟨tables.breakpointState.trans switched, tables.accesses.trans disabled.accesses⟩

include agree at_pc

theorem unpatched_prepared : Unpatched session prepared thread.state32.pc := by
  have tables := (tables_prepared steppable present here enabled preparation).1
  have memory : prepared.target.memory =
      Function.update session.target.memory breakpoint.address breakpoint.patch :=
    congrArg (·.memory) tables
  have table : prepared.breakpoints =
      session.breakpoints.set position { breakpoint with enabled := false } :=
    congrArg (·.breakpoints) tables
  rw [← at_pc]
  refine ⟨?_, ?_, ?_⟩
  · intro other mem otherEnabled same
    simp only [memory, Function.update_self]
    exact agree breakpoint (List.mem_of_getElem? here) other mem enabled otherEnabled same.symm
  · intro other different
    simp only [memory, Function.update_of_ne different]
  · intro other mem different
    rw [table]
    apply BreakpointState.mem_set_of_ne here mem
    rintro rfl
    exact different rfl

omit agree at_pc

theorem thread_mem_of_stops (stops : processor.Stops prepared stopped) :
    thread.thread ∈ session.target.live := by
  rcases steppable_disable steppable here enabled with ⟨disabled, _⟩
  have presentNow : (session.disable (.regular position)).process.threads[index]? = some thread :=
    present
  have able := stops.able
  simp only [← preparation] at able
  have live := live_of_able disabled presentNow able
  exact live

theorem prepared_of_stops (stops : processor.Stops prepared stopped) :
    Prepared session prepared thread := by
  rcases steppable_disable steppable here enabled with ⟨disabled, _⟩
  have live := thread_mem_of_stops steppable present here enabled preparation stops
  have presentNow : (session.disable (.regular position)).process.threads[index]? = some thread :=
    present
  have ready := prepared_singleStepToWait disabled presentNow live
  simp only [preparation] at ready
  exact ⟨ready.singleSteps, ready.others, ready.caches⟩

variable (waited : prepared.internalWait SIG_TRAP = some (.PRS_STOPPED, stopped))
  (stops : processor.Stops prepared stopped)

include waited stops

/-- A thread that does not take the turn keeps its registers and its cache. -/
theorem cachedAt_next {other : ThreadPort} (different : other ≠ thread.thread)
    (live : other ∈ session.target.live) (cachedAt : CachedAt session other registers) :
    CachedAt ((stopped.enableSingleStep index false).enable (.regular position) true) other
      registers := by
  have ready := prepared_of_stops steppable present here enabled preparation stops
  have quiet := quiet_of_preparation preparation
  rcases exists_thread_of_stopped quiet.ports present waited with ⟨thread', presentLater, port⟩
  rcases stops.executed _ _ ready.singleSteps with ⟨registers', executed⟩
  have distinct := distinct_of_stopped steppable.distinct quiet waited
  have current : (stopped.target.thread other).registers = .state32 registers := by
    simp only [executed.others other different, ready.others other different]
    exact cachedAt.current
  have liveLater : other ∈ stopped.target.live := by
    simp only [executed.live, quiet.live]
    exact live
  have cached : (stopped.process.entry other).state32 = registers := by
    rw [state32_entry_of_live waited liveLater current, ready.caches other different,
      cachedAt.cached]
    split <;> rfl
  have unflagged := CachedAt.enableSingleStep_of_ne ⟨current, cached⟩ distinct presentLater
    (port ▸ different) false
  exact ⟨unflagged.current, unflagged.cached⟩

/-- The thread of the turn ends it with the trap flag clear in what was cached at the stop. -/
theorem exists_cachedAt_next_self {registers' : MDBThreadState32}
    (executed : processor.Executed thread.thread registers registers' prepared.target
      stopped.target) :
    ∃ cached, CachedAt ((stopped.enableSingleStep index false).enable (.regular position) true)
        thread.thread (cached.withTrapFlag false) ∧
      (session.process.is64Bit = false → cached = registers') := by
  have quiet := quiet_of_preparation preparation
  have live := thread_mem_of_stops steppable present here enabled preparation stops
  rcases exists_thread_of_stopped quiet.ports present waited with ⟨thread', presentLater, port⟩
  have distinct := distinct_of_stopped steppable.distinct quiet waited
  have liveLater : thread'.thread ∈ stopped.target.live := by
    simp only [port, executed.live, quiet.live]
    exact live
  have current : (stopped.target.thread thread'.thread).registers = .state32 registers' := by
    rw [port]
    exact executed.own
  have unflagged := cachedAt_enableSingleStep distinct presentLater liveLater current false
  simp only [port] at unflagged
  refine ⟨thread'.state32, ⟨unflagged.current, unflagged.cached⟩, ?_⟩
  intro narrow
  have refreshed := state32_entry_of_live waited liveLater current
  rw [MDBProcess.entry_eq_of_getElem? distinct presentLater, quiet.is64Bit, narrow] at refreshed
  exact refreshed

include agree at_pc

/-- Enabling the breakpoint again brings the tables back as they were. -/
theorem breakpointState_next :
    ((stopped.enableSingleStep index false).enable (.regular position) true).breakpointState =
        { session.breakpointState with
          memory := Function.update stopped.target.memory breakpoint.address int_3 } ∧
      ((stopped.enableSingleStep index false).enable (.regular position) true).accesses = [] := by
  rcases tables_prepared steppable present here enabled preparation with ⟨tables, accesses⟩
  rcases exists_thread_of_stopped (quiet_of_preparation preparation).ports present waited with
    ⟨thread', presentLater, _⟩
  have settings := SameSettings.internalWait waited
  have unflagged := sameTables_enableSingleStep presentLater false
  have patch := (unpatched_prepared steppable agree present here enabled at_pc
    preparation).fetched breakpoint (List.mem_of_getElem? here) enabled at_pc
  have table : prepared.breakpoints =
      session.breakpoints.set position { breakpoint with enabled := false } :=
    congrArg (·.breakpoints) tables
  have restored : stopped.target.memory breakpoint.address = breakpoint.patch := by
    have bound := (List.getElem?_eq_some_iff.mp here).1
    have untouched := stops.untouched { breakpoint with enabled := false } (by
      rw [table]
      exact List.mem_set bound _)
    rw [untouched, at_pc]
    exact patch
  have stoppedTables : (stopped.enableSingleStep index false).breakpointState =
      { session.breakpointState.switchedOff .success position breakpoint with
        memory := stopped.target.memory } := by
    simp only [unflagged.breakpointState, ← tables]
    simp only [breakpointState, settings.breakpoints, settings.transientBreakpoints]
  have succeeds : (stopped.enableSingleStep index false).accesses = [] := by
    simp only [unflagged.accesses, settings.accesses, accesses]
  rcases breakpointState_enable succeeds (.regular position) true with ⟨next, nextAccesses⟩
  refine ⟨next.trans ?_, nextAccesses⟩
  rw [stoppedTables]
  exact BreakpointState.enable_of_switchedOff agree here enabled restored

theorem turnOver_next : TurnOver session
    ((stopped.enableSingleStep index false).enable (.regular position) true) thread := by
  have ready := prepared_of_stops steppable present here enabled preparation stops
  have unpatched := unpatched_prepared steppable agree present here enabled at_pc preparation
  rcases breakpointState_next steppable agree present here enabled at_pc preparation waited stops
    with ⟨tables, accesses⟩
  have quiet := quiet_of_preparation preparation
  have settings := SameSettings.internalWait waited
  rcases exists_thread_of_stopped quiet.ports present waited with ⟨thread', presentLater, port⟩
  rcases stops.executed _ _ ready.singleSteps with ⟨registers', executed⟩
  have unflagged := Quiet.enableSingleStep stopped index false
  have live : ((stopped.enableSingleStep index false).enable (.regular position) true).target.live =
      session.target.live := by
    simp only [(Quiet.enable _ _ _).live, unflagged.live, executed.live, quiet.live]
  have ports : ((stopped.enableSingleStep index false).enable (.regular position)
      true).process.ports = stopped.process.ports := unflagged.ports
  have memory : ((stopped.enableSingleStep index false).enable (.regular position)
      true).target.memory = Function.update stopped.target.memory breakpoint.address int_3 :=
    congrArg (·.memory) tables
  have others (other : ThreadPort) (different : other ≠ thread.thread) :
      (((stopped.enableSingleStep index false).enable (.regular position) true).target.thread
        other).registers = (session.target.thread other).registers := by
    have unchanged : ((stopped.enableSingleStep index false).target.thread other).registers =
        (stopped.target.thread other).registers := by
      rw [enableSingleStep_eq presentLater]
      exact registers_threadSetState32_of_ne _ (port ▸ different)
    apply unchanged.trans
    exact (executed.others other different).trans (ready.others other different)
  refine ⟨⟨?_, accesses, ?_, ?_, ?_⟩, ?_, ?_, live, ?_, ?_, ?_, others, ?_⟩
  · exact (congrArg (·.transientBreakpoints) tables).trans steppable.noTransient
  · rw [ports]
    exact distinct_of_stopped steppable.distinct quiet waited
  · intro other otherLive
    rw [ports]
    apply listed_of_stopped waited
    simp only [live, ← quiet.live, ← executed.live] at otherLive
    exact otherLive
  · intro other otherLive
    by_cases own : other = thread.thread
    · rcases exists_cachedAt_next_self steppable present here enabled preparation waited stops
        executed with ⟨cached, cachedAt, _⟩
      rw [own]
      exact ⟨_, cachedAt.current⟩
    · rw [others other own]
      exact steppable.wide other (live ▸ otherLive)
  · apply unflagged.is64Bit.trans
    exact settings.process.is64Bit.trans quiet.is64Bit
  · exact congrArg (·.breakpoints) tables
  · simp only [ports, ← quiet.ports]
    exact isPrefix_ports_internalWait waited
  · simp only [memory, at_pc, Function.update_self]
  · intro other mem different
    rw [memory, Function.update_of_ne (at_pc ▸ different),
      stops.untouched other (unpatched.others other mem different), unpatched.kept _ different]
  · intro other registers different otherLive cachedAt
    exact cachedAt_next steppable present here enabled preparation waited stops different
      otherLive cachedAt

end Turn

/-- All that a turn of the loop does. -/
theorem turn_effect (steppable : Steppable session)
    (agree : BreakpointState.PatchesAgree session.breakpoints)
    (present : session.process.threads[index]? = some thread)
    (found : session.findEnabled thread.state32.pc = some ref)
    (preparation : (session.disable ref).singleStepToWait index = prepared)
    (waited : prepared.internalWait SIG_TRAP = some (.PRS_STOPPED, stopped))
    (stops : processor.Stops prepared stopped) :
    thread.thread ∈ session.target.live ∧ Prepared session prepared thread ∧
      Unpatched session prepared thread.state32.pc ∧
      TurnOver session ((stopped.enableSingleStep index false).enable ref true) thread ∧
      ∃ registers', processor.Executed thread.thread (thread.state32.withTrapFlag true) registers'
          prepared.target stopped.target ∧
        (session.process.is64Bit = false →
          CachedAt ((stopped.enableSingleStep index false).enable ref true) thread.thread
            (registers'.withTrapFlag false)) := by
  rcases exists_of_findEnabled steppable.noTransient found with
    ⟨position, breakpoint, rfl, here, enabled, at_pc⟩
  have ready := prepared_of_stops steppable present here enabled preparation stops
  rcases stops.executed _ _ ready.singleSteps with ⟨registers', executed⟩
  rcases exists_cachedAt_next_self steppable present here enabled preparation waited stops
    executed with ⟨cached, cachedAt, refreshed⟩
  refine ⟨?_, ready, ?_, ?_, registers', executed, ?_⟩
  · exact thread_mem_of_stops steppable present here enabled preparation stops
  · exact unpatched_prepared steppable agree present here enabled at_pc preparation
  · exact turnOver_next steppable agree present here enabled at_pc preparation waited stops
  · intro narrow
    simp only [refreshed narrow] at cachedAt
    exact cachedAt

end Session

end RustDbg
