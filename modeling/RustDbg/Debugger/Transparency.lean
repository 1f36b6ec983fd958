import RustDbg.Breakpoint.Placed
import RustDbg.Debugger.Single
import RustDbg.Debugger.StepBack
import RustDbg.Library.Transition

/-!
# Debugging is transparent

A single-threaded program that cannot notice breakpoints runs under the debugger as it
does on its own. Every `resume` that succeeds takes it to the next state, at least one
instruction later, in which it stands at an enabled breakpoint, whether the breakpoint
was reached by the instruction stepped off or in the free run.
-/

namespace RustDbg.Session

open StateTransition Execution

variable {machine : Machine} {port : ThreadPort} {armed : List Address} {session after : Session}
  {start state final : ProgramState}

/--
The session is stopped where the program on its own would be in `state`: the thread and
its cache hold the registers, the memory differs by the enabled breakpoints only, which
are at `armed` and have saved what they replaced, and all memory accesses will succeed.
-/
structure Follows (port : ThreadPort) (armed : List Address) (session : Session)
    (state : ProgramState) : Prop where
  sole : Sole port session state.registers
  placed : BreakpointState.Placed armed state.memory session.breakpointState
  clear : state.registers.trapFlag = false
  accesses : session.accesses = []

theorem findEnabled_cases {original : Memory}
    (placed : BreakpointState.Placed armed original session.breakpointState) (address : Address) :
    (session.findEnabled address = none ∧ address ∉ armed) ∨
    ∃ (index : Nat) (breakpoint : MDBBreakpoint),
      session.findEnabled address = some (.regular index) ∧ address ∈ armed ∧
        session.breakpoints[index]? = some breakpoint ∧ breakpoint.enabled = true ∧
        breakpoint.address = address := by
  by_cases mem : address ∈ armed
  · right
    obtain ⟨index, breakpoint, present, enabled, rfl⟩ :=
      (BreakpointState.enabledAt_iff placed.noTransient).mp ((placed.enabledAt address).mp mem)
    have pointed : session.breakpointState.deref (.regular index) = some breakpoint := present
    refine ⟨index, breakpoint, ?_, mem, present, enabled, rfl⟩
    simp [findEnabled, BreakpointState.findBreakpoint_of_deref placed.distinctAddresses pointed,
      pointed, enabled]
  · left
    refine ⟨?_, mem⟩
    cases found : session.findEnabled address with
    | none => rfl
    | some ref => exact absurd ((placed.enabledAt address).mpr (enabledAt_of_findEnabled found)) mem

/-! ## Stepping off a breakpoint -/

/-- The program is stepped off a breakpoint: the trap flag is set, the breakpoint switched off. -/
structure SteppingOff (port : ThreadPort) (armed : List Address) (index : Nat)
    (breakpoint : MDBBreakpoint) (session : Session) (state : ProgramState) : Prop where
  sole : Sole port session (state.registers.withTrapFlag true)
  placed : BreakpointState.Placed (armed.filter (· ≠ breakpoint.address)) state.memory
    session.breakpointState
  present : session.breakpoints[index]? = some { breakpoint with enabled := false }
  accesses : session.accesses = []

variable {index : Nat} {breakpoint : MDBBreakpoint}

theorem patched_eq {placed : List Address}
    (tables : BreakpointState.Placed placed state.memory session.breakpointState) (flag : Bool) :
    (⟨state.registers.withTrapFlag flag, session.target.memory⟩ : ProgramState) =
      state.patched placed flag := by
  have memory : session.target.memory = _ := tables.memory_eq
  rw [memory]
  rfl

theorem Follows.steppingOff (follows : Follows port armed session state)
    (present : session.breakpoints[index]? = some breakpoint)
    (enabled : breakpoint.enabled = true) :
    SteppingOff port armed index breakpoint
      ((session.disable (.regular index)).singleStepToWait 0) state := by
  rcases breakpointState_enable follows.accesses (.regular index) false with
    ⟨disabledTables, accesses⟩
  rcases follows.placed.disable present enabled with ⟨placed, switched⟩
  have sole : Sole port (session.disable (.regular index)) state.registers :=
    follows.sole.enable (.regular index) false
  rcases sole.singleStepToWait with ⟨prepared, preparedTables⟩
  have tables := preparedTables.breakpointState.trans disabledTables
  refine ⟨prepared, ?_, ?_, preparedTables.accesses.trans accesses⟩
  · rw [tables]
    exact placed
  · have breakpoints := congrArg (·.breakpoints) tables
    exact (congrArg (·[index]?) breakpoints).trans switched

/-- The wait for the step sees one instruction executed, unless it ends the program. -/
theorem SteppingOff.wait (stepping : SteppingOff port armed index breakpoint session state)
    (program : machine.Debuggable armed start) (reaches : Reaches machine.execute start state)
    (clear : state.registers.trapFlag = false) (here : breakpoint.address = state.pc)
    (driven : Driven machine port session) {waitState : MDBProcessRunState}
    (returned : session.internalWait SIG_TRAP = some (waitState, after)) :
    Driven machine port after ∧
      ((waitState = .PRS_STOPPED ∧ ∃ next, machine.execute state = some next ∧
          SteppingOff port armed index breakpoint after next) ∨
        (waitState = .PRS_TERMINATED ∧ Ended machine port after)) := by
  rcases stepping.sole.wait driven returned with ⟨drivenLater, found⟩
  have settings := SameSettings.internalWait returned
  refine ⟨drivenLater, ?_⟩
  cases found with
  | ended gone => exact Or.inr ⟨rfl, gone, drivenLater⟩
  | stopped stops sole memory =>
      rcases stops with ⟨last, run, paused⟩
      simp only [patched_eq stepping.placed] at run
      have subset : ∀ address ∈ armed.filter (· ≠ breakpoint.address), address ∈ armed :=
        fun address mem => (List.mem_filter.mp mem).1
      have unpatched : state.pc ∉ armed.filter (· ≠ breakpoint.address) := by
        simp [here]
      rcases program.singleStep reaches clear subset unpatched run paused with ⟨next, executed, rfl⟩
      refine Or.inl ⟨rfl, next, executed, sole, ?_, ?_, ?_⟩
      · refine stepping.placed.replace ?_ settings.breakpoints settings.transientBreakpoints memory
        exact fun address mem =>
          (program.keeps reaches clear executed).2 address (subset address mem)
      · exact (congrArg (·[index]?) settings.breakpoints).trans stepping.present
      · exact settings.accesses.trans stepping.accesses

theorem SteppingOff.follows (stepping : SteppingOff port armed index breakpoint session state)
    (clear : state.registers.trapFlag = false) (armedHere : breakpoint.address ∈ armed) :
    Follows port armed ((session.enableSingleStep 0 false).enable (.regular index) true) state := by
  rcases stepping.sole.enableSingleStep false with ⟨unflagged, tables⟩
  have accesses := tables.accesses.trans stepping.accesses
  rcases breakpointState_enable accesses (.regular index) true with ⟨enabledTables, accesses⟩
  have present : session.breakpointState.breakpoints[index]? =
      some { breakpoint with enabled := false } := stepping.present
  have placed := stepping.placed.enable present rfl
  rw [MDBThreadState32.withTrapFlag_withTrapFlag, MDBThreadState32.withTrapFlag_eq_self clear]
    at unflagged
  refine ⟨unflagged.enable _ _, ?_, clear, accesses⟩
  simp only [enabledTables, tables.breakpointState]
  refine placed.congr fun address => ?_
  by_cases same : address = breakpoint.address <;> simp [same, armedHere]

/-- Stepping the thread off the breakpoint it stands at executes one instruction. -/
theorem Follows.stepOff (follows : Follows port armed session state)
    (program : machine.Debuggable armed start) (reaches : Reaches machine.execute start state)
    (driven : Driven machine port session)
    (present : session.breakpoints[index]? = some breakpoint) (enabled : breakpoint.enabled = true)
    (here : breakpoint.address = state.pc) (armedHere : state.pc ∈ armed)
    (stepped : session.stepOff 0 (.regular index) = some after) :
    (∃ next, machine.execute state = some next ∧ Follows port armed after next ∧
      Driven machine port after) ∨ Ended machine port after := by
  rcases stepOff_cases stepped with ⟨waitState, waited, returned, rfl⟩
  have quiet : Quiet session ((session.disable (.regular index)).singleStepToWait 0) :=
    (Quiet.disable session _).trans (.singleStepToWait _ 0)
  rcases (follows.steppingOff present enabled).wait program reaches
    follows.clear here (driven.quiet quiet) returned with ⟨drivenLater, found⟩
  rcases found with ⟨rfl, next, executed, stepping⟩ | ⟨rfl, ended⟩
  · left
    have clear := (program.keeps reaches follows.clear executed).1
    refine ⟨next, executed, ?_, ?_⟩
    · rw [if_pos rfl]
      exact stepping.follows clear (here ▸ armedHere)
    · rw [if_pos rfl]
      apply drivenLater.quiet
      exact (Quiet.enableSingleStep waited 0 false).trans (.enable _ _ true)
  · right
    rw [if_neg (by decide)]
    exact ended

/-! ## Resuming -/

theorem Sole.getElem?_threads {registers : MDBThreadState32} (sole : Sole port session registers) :
    ∃ thread, session.process.threads[0]? = some thread ∧ thread.thread = port ∧
      thread.state32 = registers ∧ session.process.threads.length = 1 := by
  rcases sole.cached with ⟨thread, table, port_eq, registers_eq⟩
  exact ⟨thread, by simp [table], port_eq, registers_eq, by simp [table]⟩

theorem checkForBreakpointsAndStep_single {stepped : Session} {thread : MDBThread}
    {ref : BreakpointRef} (table : session.process.threads = [thread])
    (found : session.findEnabled thread.state32.pc = some ref)
    (steppedOff : session.stepOff 0 ref = some stepped)
    (length : stepped.process.threads.length = 1) :
    session.checkForBreakpointsAndStep = some stepped := by
  have present : session.process.threads[0]? = some thread := by simp [table]
  simp only [checkForBreakpointsAndStep, stepOffFrom_of_getElem? present, found]
  simp [steppedOff, stepOffFrom_of_le (Nat.le_of_eq length)]

/-- If the program stands at a breakpoint it executes one instruction, else nothing happens. -/
theorem Follows.checkForBreakpointsAndStep (follows : Follows port armed session state)
    (program : machine.Debuggable armed start) (reaches : Reaches machine.execute start state)
    (driven : Driven machine port session)
    (stepped : session.checkForBreakpointsAndStep = some after) :
    (∃ next, Follows port armed after next ∧ Driven machine port after ∧
      ((state.pc ∉ armed ∧ next = state) ∨ machine.execute state = some next)) ∨
      Ended machine port after := by
  rcases follows.sole.getElem?_threads with ⟨thread, present, -, registers_eq, length⟩
  have pc_eq : thread.state32.pc = state.pc := congrArg MDBThreadState32.pc registers_eq
  simp only [Session.checkForBreakpointsAndStep, stepOffFrom_of_getElem? present, pc_eq] at stepped
  rcases findEnabled_cases follows.placed state.pc with
    ⟨found, absent⟩ | ⟨index, breakpoint, found, mem, presentBreakpoint, enabled, here⟩
  · simp only [found] at stepped
    obtain rfl : session = after := by
      simpa [stepOffFrom_of_le (Nat.le_of_eq length)] using stepped
    exact Or.inl ⟨state, follows, driven, Or.inl ⟨absent, rfl⟩⟩
  · simp only [found] at stepped
    rcases Option.bind_eq_some_iff.mp stepped with ⟨middle, steppedOff, rest⟩
    rcases follows.stepOff program reaches driven presentBreakpoint enabled here mem steppedOff with
      ⟨next, executed, followsNext, drivenNext⟩ | ended
    · rcases followsNext.sole.getElem?_threads with ⟨-, -, -, -, lengthNext⟩
      obtain rfl : middle = after := by
        simpa [stepOffFrom_of_le (Nat.le_of_eq lengthNext)] using rest
      exact Or.inl ⟨next, followsNext, drivenNext, Or.inr executed⟩
    · apply Or.inr
      exact ended.advances (advances_stepOffFrom rest)

/-- A thread that has run into a breakpoint is stepped back onto it. -/
theorem Follows.of_stepBack {waited : Session}
    (sole : Sole port waited { final.registers with eip := final.registers.eip + 1 })
    (placed : BreakpointState.Placed armed final.memory waited.breakpointState)
    (clear : final.registers.trapFlag = false) (accesses : waited.accesses = [])
    (armedHere : final.pc ∈ armed) :
    Follows port armed waited.checkForBreakpointsAndStepBack final := by
  rcases sole.getElem?_threads with ⟨thread, present, -, registers_eq, length⟩
  have address_eq : (thread.state32.eip - 1).setWidth 64 = final.pc := by
    rw [registers_eq]
    change (final.registers.eip + 1 - 1).setWidth 64 = _
    rw [BitVec.add_sub_cancel]
    rfl
  rcases findEnabled_cases placed final.pc with ⟨-, absent⟩ | ⟨index, breakpoint, found, -⟩
  · exact absurd armedHere absent
  · have turn : waited.checkForBreakpointsAndStepBack =
        (waited.onBreakpointReached thread.thread
          (.regular index)).updateInstructionPointerAndCommitState 0 (-1) := by
      simp only [checkForBreakpointsAndStepBack, length, List.range_one, List.foldl_cons,
        List.foldl_nil, stepBackThread, present, address_eq, found]
    have reached : Sole port (waited.onBreakpointReached thread.thread (.regular index))
        { final.registers with eip := final.registers.eip + 1 } :=
      ⟨sole.live, sole.current, sole.cached, sole.is64Bit, sole.pidKnown⟩
    rcases reached.updateInstructionPointerAndCommitState (-1) with ⟨back, tables⟩
    rw [turn]
    refine ⟨?_, ?_, clear, tables.accesses.trans accesses⟩
    · have eip : final.registers.eip + 1 + -1 = final.registers.eip := by
        simp only [← BitVec.sub_eq_add_neg, BitVec.add_sub_cancel]
      simpa only [eip] using back
    · rw [tables.breakpointState]
      exact placed

theorem Follows.memory_eq (follows : Follows port armed session state) :
    session.target.memory =
      fun address => if address ∈ armed then int_3 else state.memory address :=
  follows.placed.memory_eq

theorem Follows.freeRun (follows : Follows port armed session state)
    (program : machine.Debuggable armed start) (reaches : Reaches machine.execute start state)
    (driven : Driven machine port session) {waited : Session} {waitState : MDBProcessRunState}
    (returned : session.machResumeThreadsAndTask.internalWait SIG_TRAP =
      some (waitState, waited)) :
    (waitState = .PRS_STOPPED ∧ ∃ final, StopsAt machine.execute (·.pc ∈ armed) state final ∧
        Follows port armed waited.checkForBreakpointsAndStepBack final ∧
        Driven machine port waited.checkForBreakpointsAndStepBack) ∨
      (waitState = .PRS_TERMINATED ∧ Ended machine port waited) := by
  rcases follows.sole.machResumeThreadsAndTask with ⟨freed, freedTables⟩
  have settings := SameSettings.internalWait returned
  rcases freed.wait (driven.quiet (.machResumeThreadsAndTask session)) returned with
    ⟨drivenLater, found⟩
  cases found with
  | ended gone => exact Or.inr ⟨rfl, gone, drivenLater⟩
  | stopped stops sole memory =>
      have tables : BreakpointState.Placed armed state.memory
          session.machResumeThreadsAndTask.breakpointState := by
        rw [freedTables.breakpointState]
        exact follows.placed
      rcases stops with ⟨last, run, paused⟩
      rw [← MDBThreadState32.withTrapFlag_eq_self follows.clear, patched_eq tables] at run
      rcases program.freeRun reaches follows.clear run paused with ⟨final, finalRun, runsOn, rfl⟩
      have drivenAfter := drivenLater.quiet (.checkForBreakpointsAndStepBack waited)
      refine Or.inl ⟨rfl, final, finalRun, ?_, drivenAfter⟩
      refine Follows.of_stepBack ?_ ?_ runsOn.clear ?_ finalRun.stopped
      · have registers := MDBThreadState32.withTrapFlag_eq_self runsOn.clear
        simpa only [ProgramState.skipInt3, ProgramState.patched, registers] using sole
      · exact tables.replace runsOn.saved settings.breakpoints settings.transientBreakpoints memory
      · apply settings.accesses.trans
        exact freedTables.accesses.trans follows.accesses

/-- A `resume` takes the program to its next stop at a breakpoint, or finds it ended. -/
theorem Follows.resume {answer : Bool} (follows : Follows port armed session state)
    (program : machine.Debuggable armed start) (reaches : Reaches machine.execute start state)
    (driven : Driven machine port session) (resumed : session.resume = some (answer, after)) :
    (answer = true ∧ ∃ final, StopsAfter machine.execute (·.pc ∈ armed) state final ∧
        Follows port armed after final ∧ Driven machine port after) ∨
      (answer = false ∧ Ended machine port after) := by
  rcases resume_cases resumed with ⟨freed, waitState, waited, steps, returned, rfl, rfl⟩
  rcases Option.map_eq_some_iff.mp steps with ⟨stepped, steppedOff, rfl⟩
  rcases follows.checkForBreakpointsAndStep program reaches driven steppedOff with
    ⟨next, followsNext, drivenNext, moved⟩ | ended
  · have reachesNext : Reaches machine.execute start next := by
      rcases moved with ⟨-, rfl⟩ | executed
      · exact reaches
      · exact reaches.tail executed
    rcases followsNext.freeRun program reachesNext drivenNext returned with
      ⟨rfl, final, run, followsFinal, drivenFinal⟩ | ⟨rfl, ended⟩
    · refine Or.inl ⟨rfl, final, ?_, followsFinal, drivenFinal⟩
      rcases moved with ⟨absent, rfl⟩ | executed
      · exact run.stopsAfter absent
      · exact ⟨next, executed, run⟩
    · exact Or.inr ⟨rfl, ended⟩
  · rcases (ended.quiet (.machResumeThreadsAndTask stepped)).wait returned with
      ⟨notStopped, stillEnded⟩
    rw [if_neg notStopped]
    exact Or.inr ⟨decide_eq_false notStopped, stillEnded⟩

/-! ## Runs -/

/-- The stops at breakpoints that the program makes from a state on, one after the other. -/
abbrev Stations (machine : Machine) (armed : List Address) : ProgramState → ProgramState → Prop :=
  Relation.ReflTransGen (StopsAfter machine.execute (·.pc ∈ armed))

theorem Stations.reaches (stations : Stations machine armed start state) :
    Reaches machine.execute start state := by
  induction stations with
  | refl => exact .refl
  | tail _ leg ih => exact ih.trans leg.reaches

/-- However often the debugger resumes, it stands where the program stops, or has ended. -/
theorem Follows.run {ud : Udis86} (follows : Follows port armed session state)
    (program : machine.Debuggable armed start) (stations : Stations machine armed start state)
    (driven : Driven machine port session) {count : Nat}
    (reached : Transition.run (perform ud) session (List.replicate count .resume) = some after) :
    (∃ final, Stations machine armed start final ∧ Follows port armed after final ∧
        Driven machine port after) ∨
      Ended machine port after := by
  induction count generalizing session state with
  | zero =>
      rcases Option.some.inj reached with rfl
      exact Or.inl ⟨state, stations, follows, driven⟩
  | succ count ih =>
      rcases Transition.run_cons_eq_some.mp reached with ⟨next, performed, rest⟩
      rcases Option.map_eq_some_iff.mp performed with ⟨⟨answer, _⟩, resumed, rfl⟩
      rcases follows.resume program stations.reaches driven resumed with
        ⟨-, final, leg, followsNext, drivenNext⟩ | ⟨-, ended⟩
      · exact ih followsNext (stations.tail leg) drivenNext rest
      · apply Or.inr
        exact Transition.invariant_of_run (Ended machine port)
          (fun _ _ _ ended performed => ended.advances (advances_perform performed)) ended rest

/--
Debugging is transparent: in a run of resumes from a stopped state, every `resume` that
returns true takes the program from where it stands on its own to the next state, at
least one instruction later, in which it is at an enabled breakpoint. The thread then
has the registers of that state and the memory differs from that state's by `int3` at
the enabled breakpoints only.
-/
theorem transparent_resume {ud : Udis86} (follows : Follows port armed session start)
    (program : machine.Debuggable armed start) (driven : Driven machine port session)
    {count : Nat} {before : Session}
    (reached : Transition.run (perform ud) session (List.replicate count .resume) = some before)
    (resumed : before.resume = some (true, after)) :
    ∃ state final, Stations machine armed start state ∧ Follows port armed before state ∧
      StopsAfter machine.execute (·.pc ∈ armed) state final ∧
      (after.target.thread port).registers = .state32 final.registers ∧
      after.target.memory =
        (fun address => if address ∈ armed then int_3 else final.memory address) ∧
      Follows port armed after final := by
  rcases follows.run program .refl driven reached with
    ⟨state, stations, followsHere, drivenHere⟩ | ended
  · rcases followsHere.resume program stations.reaches drivenHere resumed with
      ⟨-, final, leg, followsAfter, -⟩ | ⟨contrary, -⟩
    · exact ⟨state, final, stations, followsHere, leg, followsAfter.sole.current,
        followsAfter.memory_eq, followsAfter⟩
    · simp at contrary
  · rcases resume_cases resumed with ⟨freed, waitState, waited, steps, returned, answer, -⟩
    have endedLater := ended.advances (advances_resumeToWait steps)
    exact absurd (of_decide_eq_true answer.symm) (endedLater.wait returned).1

/-! ## A program that loops -/

/-- The address behind a `nop` or the one a short jump goes to. -/
def nextEip (memory : Memory) (eip : BitVec 32) : Option (BitVec 32) :=
  let address := eip.setWidth 64
  if memory address = 0x90#8 then some (eip + 1)
  else if memory address = 0xEB#8 then some (eip + 2 + (memory (address + 1)).signExtend 32)
  else none

def nopAndJump : Machine where
  execute state := (nextEip state.memory state.registers.eip).map fun eip =>
    { state with registers := { state.registers with eip } }
  instructionLength state := if state.memory state.pc = 0xEB#8 then 2 else 1

/-- A `nop` at `0x1000` and a jump back to it. -/
def loopMemory : Memory :=
  fun address =>
    if address = 0x1000#64 then 0x90#8 else if address = 0x1001#64 then 0xEB#8
    else if address = 0x1002#64 then 0xFD#8 else 0#8

def loopAt (eip : BitVec 32) : ProgramState := ⟨registersAt eip, loopMemory⟩

theorem loopAt_of_reaches {state : ProgramState}
    (reaches : Reaches nopAndJump.execute (loopAt 0x1000#32) state) :
    state = loopAt 0x1000#32 ∨ state = loopAt 0x1001#32 := by
  have preserved (state next : ProgramState)
      (inLoop : state = loopAt 0x1000#32 ∨ state = loopAt 0x1001#32)
      (executed : nopAndJump.execute state = some next) :
      next = loopAt 0x1000#32 ∨ next = loopAt 0x1001#32 := by
    rcases inLoop with rfl | rfl
    · exact Or.inr (Option.some.inj executed).symm
    · exact Or.inl (Option.some.inj executed).symm
  exact reaches_invariant (fun state => state = loopAt 0x1000#32 ∨ state = loopAt 0x1001#32)
    preserved (Or.inl rfl) reaches

theorem debuggable_loop : nopAndJump.Debuggable [0x1000#64] (loopAt 0x1000#32) where
  noInt3 state reaches := by
    rcases loopAt_of_reaches reaches with rfl | rfl <;> decide
  unsplit state reaches offset positive within := by
    rcases loopAt_of_reaches reaches with rfl | rfl
    · apply absurd within
      exact Nat.not_lt.mpr positive
    · obtain rfl : offset = 1 := Nat.le_antisymm (Nat.le_of_lt_succ within) positive
      decide
  oblivious state reaches flag memory elsewhere instruction := by
    have same : memory = fun address =>
        if address ∈ [0x1000#64] then memory address else state.memory address := by
      funext address
      split
      · rfl
      · rename_i absent
        exact elsewhere address absent
    have executes {eip next : BitVec 32} (fetched : nextEip memory eip = some next) :
        nopAndJump.execute ⟨(registersAt eip).withTrapFlag flag, memory⟩ =
          some ⟨(registersAt next).withTrapFlag flag, memory⟩ :=
      congrArg (Option.map _) fetched
    rcases loopAt_of_reaches reaches with rfl | rfl
    · have opcode : memory 0x1000#64 = 0x90#8 := instruction 0 (by decide)
      have fetched : nextEip memory 0x1000#32 = some 0x1001#32 := by simp [nextEip, opcode]
      apply (executes fetched).trans
      exact congrArg (fun memory => some (ProgramState.mk _ memory)) same
    · have opcode : memory 0x1001#64 = 0xEB#8 := instruction 0 (by decide)
      have operand : memory 0x1002#64 = 0xFD#8 := instruction 1 (by decide)
      have fetched : nextEip memory 0x1001#32 = some 0x1000#32 := by
        simp [nextEip, opcode, operand]
      apply (executes fetched).trans
      exact congrArg (fun memory => some (ProgramState.mk _ memory)) same

def loopStopped : Session :=
  { attached
      { memory := ((loopAt 0x1000#32).patched [0x1000#64] false).memory
        live := [1]
        thread := fun _ => ⟨.state32 (registersAt 0x1000#32), ⟨.running, 0⟩⟩
        suspendCount := 0
        pidKnown := true }
      (List.replicate 4 (nopAndJump.waitpid 1 4)) with
    breakpoints := [⟨0x1000#64, 0x90#8, true, none⟩]
    process := {
      running := true
      is64Bit := false
      threads := [⟨1, ⟨.running, 0⟩, registersAt 0x1000#32, default⟩]
      uninitialized := fun _ => default } }

def stepOffLoop (session : Session) : Session := (session.stepOff 0 (.regular 0)).getD session

/-- A session in which the loop has run on to its breakpoint. -/
def resumeLoop (session : Session) : Session :=
  let waited := (stepOffLoop session).machResumeThreadsAndTask.internalWait SIG_TRAP
  (waited.elim session (·.2)).checkForBreakpointsAndStepBack

theorem resume_loopStopped : loopStopped.resume = some (true, resumeLoop loopStopped) := by
  have stepped : loopStopped.checkForBreakpointsAndStep = some (stepOffLoop loopStopped) :=
    checkForBreakpointsAndStep_single rfl rfl rfl rfl
  simp only [resume, resumeToWait, stepped]
  rfl

theorem resume_resumeLoop :
    (resumeLoop loopStopped).resume = some (true, resumeLoop (resumeLoop loopStopped)) := by
  have stepped : (resumeLoop loopStopped).checkForBreakpointsAndStep =
      some (stepOffLoop (resumeLoop loopStopped)) :=
    checkForBreakpointsAndStep_single rfl rfl rfl rfl
  simp only [resume, resumeToWait, stepped]
  rfl

theorem follows_loopStopped : Follows 1 [0x1000#64] loopStopped (loopAt 0x1000#32) where
  sole := ⟨rfl, rfl, ⟨_, rfl, rfl, rfl⟩, rfl, rfl⟩
  placed := .singleton rfl rfl rfl
  clear := rfl
  accesses := rfl

theorem transparent_resume_loop :
    ∃ state final, Stations nopAndJump [0x1000#64] (loopAt 0x1000#32) state ∧
      Follows 1 [0x1000#64] (resumeLoop loopStopped) state ∧
      StopsAfter nopAndJump.execute (·.pc ∈ [0x1000#64]) state final ∧
      ((resumeLoop (resumeLoop loopStopped)).target.thread 1).registers =
        .state32 final.registers ∧
      (resumeLoop (resumeLoop loopStopped)).target.memory =
        (fun address => if address ∈ [0x1000#64] then int_3 else final.memory address) ∧
      Follows 1 [0x1000#64] (resumeLoop (resumeLoop loopStopped)) final := by
  have driven : Driven nopAndJump 1 loopStopped := by
    intro event mem
    rw [List.eq_of_mem_replicate mem]
    exact nopAndJump.drives_waitpid 1 4
  have reached : Transition.run (perform fun _ => ⟨0, .other 0⟩) loopStopped
      (List.replicate 1 .resume) = some (resumeLoop loopStopped) := by
    simp [Transition.run, perform, resume_loopStopped]
  exact transparent_resume follows_loopStopped debuggable_loop driven reached resume_resumeLoop

end RustDbg.Session
