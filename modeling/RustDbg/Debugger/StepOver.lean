import RustDbg.Debugger.StepBack

/-!
# Where stepping over a call stops

`MDBDebugger::stepOver` lets the target run to a breakpoint behind the call and returns
when it has stopped. The trap has left the thread one byte behind that breakpoint, and
unlike `resume` nothing steps it back.
-/

namespace RustDbg.Session

variable {session after stopped : Session} {ud : Udis86} {index : Nat} {thread : MDBThread}
  {port : ThreadPort} {state : MDBProcessRunState} {address : BitVec 32}

/-- The instruction length by which `stepOver` finds the end of the call at an address. -/
def callLength (session : Session) (ud : Udis86) (address : Address) : Nat :=
  (((session.findEnabled address).elim session session.disable).getInstructionLength ud address).1

/-- The instruction that comes after the call a thread is at. -/
def afterCall (session : Session) (ud : Udis86) (thread : MDBThread) : BitVec 32 :=
  thread.state32.eip + BitVec.ofNat 32
    ((session.isCallInstruction ud thread.state32.pc).2.callLength ud thread.state32.pc)

/-- What `stepOver` lets run for a thread that is at a call. -/
def steppedOver (session : Session) (ud : Udis86) (thread : MDBThread) : Session :=
  (session.isCallInstruction ud thread.state32.pc).2.stepOverToWait ud thread.state32.pc

/-! ## The breakpoint behind the call -/

/-- Resuming the debugger's own threads and the task changes no execution. -/
theorem resumedAll (session : Session) :
    ∃ target, session.target.SameExecution target ∧
      session.resumeAllThreadsAndTask = { session with target } := by
  have resumed : ∀ (indices : List Nat) (session : Session),
      ∃ target, session.target.SameExecution target ∧
        indices.foldl machResumeThread session = { session with target } := by
    intro indices session
    induction indices generalizing session with
    | nil => exact ⟨session.target, .refl _, rfl⟩
    | cons index rest ih =>
        simp only [List.foldl_cons, machResumeThread]
        split
        · rename_i thread present
          rcases ih { session with target := (session.target.machResumeThread thread.thread).2 }
            with ⟨target, same, result⟩
          exact ⟨target, (Target.sameExecution_machResumeThread ..).trans same, result⟩
        · exact ih session
  rcases resumed session.threads session with ⟨target, same, result⟩
  refine ⟨_, same.trans (Target.sameExecution_machResumeTask target), ?_⟩
  simp only [resumeAllThreadsAndTask, result]
  rfl

theorem breakpointState_resumeAllThreadsAndTask (session : Session) :
    session.resumeAllThreadsAndTask.breakpointState = session.breakpointState := by
  rcases resumedAll session with ⟨target, same, result⟩
  simp only [result, breakpointState, same.memory]

theorem breakpoints_resumeAllThreadsAndTask (session : Session) :
    session.resumeAllThreadsAndTask.breakpoints = session.breakpoints :=
  congrArg (·.breakpoints) (breakpointState_resumeAllThreadsAndTask session)

/-- A new breakpoint that is enabled is set, whatever comes of the Mach calls. -/
theorem exists_enabled_createBreakpoint (session : Session) (address : Address) :
    ∃ patch, ((session.createBreakpoint address).2.enable (session.createBreakpoint address).1
        true).breakpoints[session.breakpoints.length]? = some ⟨address, patch, true, none⟩ := by
  have present : (session.createBreakpoint address).2.breakpointState.breakpoints[
      session.breakpoints.length]? = some ⟨address, _, false, none⟩ := List.getElem?_concat_length
  have enabled : ((session.createBreakpoint address).2.enable
      (.regular session.breakpoints.length) true).breakpointState = _ :=
    BreakpointState.enable_true_of_disabled present rfl
  have table := congrArg (·.breakpoints[session.breakpoints.length]?) enabled
  have bound := (List.getElem?_eq_some_iff.mp present).1
  exact ⟨_, table.trans (List.getElem?_set_self bound)⟩

/-- Behind the call there is an enabled breakpoint when the target is let run. -/
theorem enabledAt_steppedOver (session : Session) (ud : Udis86) (thread : MDBThread) :
    (session.steppedOver ud thread).EnabledAt (thread.state32.pc + BitVec.ofNat 64
      ((session.isCallInstruction ud thread.state32.pc).2.callLength ud thread.state32.pc)) := by
  simp only [steppedOver, stepOverToWait, callLength]
  generalize (session.isCallInstruction ud thread.state32.pc).2 = decoded
  generalize (decoded.findEnabled thread.state32.pc).elim decoded decoded.disable = cleared
  rcases exists_enabled_createBreakpoint (cleared.getInstructionLength ud thread.state32.pc).2
    (thread.state32.pc + BitVec.ofNat 64 (cleared.getInstructionLength ud thread.state32.pc).1) with
    ⟨patch, present⟩
  rw [← breakpoints_resumeAllThreadsAndTask] at present
  exact ⟨.regular (cleared.getInstructionLength ud thread.state32.pc).2.breakpoints.length, _,
    present, rfl, rfl⟩

/-! ## What comes after the stop -/

theorem programCounter_enable (session : Session) (ref : BreakpointRef) (enable : Bool)
    (port : ThreadPort) : (session.enable ref enable).programCounter port =
      session.programCounter port := by
  rfl

theorem programCounter_deleteTransientBreakpoints
    (deleted : session.deleteTransientBreakpoints = some after) (port : ThreadPort) :
    after.programCounter port = session.programCounter port := by
  simp only [deleteTransientBreakpoints, Option.ite_none_left_eq_some, Option.some.injEq] at deleted
  rcases deleted with ⟨_, rfl⟩
  rfl

/-- `stepOver` moves no thread after the stop it has waited for. -/
theorem programCounter_stepOver (present : session.process.threads[index]? = some thread)
    (call : (session.isCallInstruction ud thread.state32.pc).1 = true)
    (waited : (session.steppedOver ud thread).internalWait SIG_TRAP = some (state, stopped))
    (stepped : session.stepOver ud index = some (true, after)) (port : ThreadPort) :
    after.programCounter port = stopped.programCounter port := by
  simp only [steppedOver] at waited
  simp only [stepOver, present, Option.bind_eq_bind, Option.bind_some, call, Bool.true_eq_false,
    if_false, waited] at stepped
  split at stepped
  · simp only [Option.bind_eq_some_iff, Option.pure_def, Option.some.injEq, Prod.mk.injEq]
      at stepped
    rcases stepped with ⟨deleted, deletion, _, rfl⟩
    rw [programCounter_deleteTransientBreakpoints deletion]
    cases (session.isCallInstruction ud thread.state32.pc).2.findEnabled thread.state32.pc with
    | none => rfl
    | some ref => exact programCounter_enable stopped ref true port
  · simp at stepped

/--
When `stepOver` returns because its thread has hit the breakpoint behind the call, the
thread is never at the instruction after the call, but one byte behind its start.
-/
theorem stepOver_stops_behind (present : session.process.threads[index]? = some thread)
    (call : (session.isCallInstruction ud thread.state32.pc).1 = true)
    (waited : (session.steppedOver ud thread).internalWait SIG_TRAP = some (state, stopped))
    (hits : HitsAt (session.steppedOver ud thread).EnabledAt (session.steppedOver ud thread).target
      stopped.target thread.thread (session.afterCall ud thread))
    (stepped : session.stepOver ud index = some (true, after)) :
    after.programCounter thread.thread ≠ some (session.afterCall ud thread) ∧
      after.programCounter thread.thread = some (session.afterCall ud thread + 1) := by
  have counter : after.programCounter thread.thread =
      some (session.afterCall ud thread + 1) := by
    simp only [programCounter_stepOver present call waited stepped, programCounter_of_hitsAt hits]
  refine ⟨?_, counter⟩
  simp only [counter, ne_eq, Option.some.injEq]
  bv_omega

/-! ## A call at `0x1000` -/

/-- The instructions of the samples: `call`, `ret`, `loop` and `nop`. -/
def callDecoder : Udis86 := fun bytes =>
  if bytes.head? = some 0xE8#8 then ⟨5, .UD_Icall⟩
  else if bytes.head? = some 0xC3#8 then ⟨1, .UD_Iret⟩
  else if bytes.head? = some 0xE2#8 then ⟨2, .other 0⟩
  else ⟨1, .other 1⟩

/-- `call 0x2000`, and there a `ret`. -/
def callMemory : Memory :=
  store (store (fun _ => 0x90#8) 0x1000#64 [0xE8#8, 0xFB#8, 0x0F#8, 0x00#8, 0x00#8]) 0x2000#64
    [0xC3#8]

def registersWith (eip esp : BitVec 32) : MDBThreadState32 := { registersAt eip with esp }

def callTask : Target where
  memory := callMemory
  live := [1]
  thread _ := ⟨.state32 (registersWith 0x1000#32 0x8000#32), ⟨.running, 0⟩⟩
  suspendCount := 0
  pidKnown := true

/-- A call whose return address is `0x1005` takes a thread to an address. -/
def callTo (port : ThreadPort) (registers : MDBThreadState32) (target : Target) : Target :=
  { target.setRegisters port registers with
    memory := store target.memory (registers.esp.setWidth 64) [0x05#8, 0x10#8, 0x00#8, 0x00#8] }

def enterCall (target : Target) : Target := callTo 1 (registersWith 0x2000#32 0x7FFC#32) target

def leaveCall (target : Target) : Target :=
  target.setRegisters 1 (registersWith 0x1005#32 0x8000#32)

/-- The thread makes the call, comes back and executes the breakpoint. -/
def crossCall (target : Target) : Target :=
  (leaveCall (enterCall target)).setRegisters 1 (registersWith 0x1006#32 0x8000#32)

def callingThread : MDBThread :=
  ⟨1, ⟨.running, 0⟩, registersWith 0x1000#32 0x8000#32, default⟩

def atCall : Session :=
  { attached callTask [fun target => some (crossCall target, .stopped SIG_TRAP none)] with
    process := {
      running := true
      is64Bit := false
      threads := [callingThread]
      uninitialized := fun _ => default } }

def freedAtCall : Session := atCall.steppedOver callDecoder callingThread

def stoppedAfterCall : Session :=
  (freedAtCall.report [] (crossCall freedAtCall.target) (.stopped SIG_TRAP none)).gatherThreads
    |>.noteReturn .PRS_STOPPED

theorem afterCall_atCall : atCall.afterCall callDecoder callingThread = 0x1005#32 := by
  decide

theorem internalWait_freedAtCall :
    freedAtCall.internalWait SIG_TRAP = some (.PRS_STOPPED, stoppedAfterCall) := by
  rfl

section Moves

variable {armed : Address → Prop} {target : Target} {port : ThreadPort}
  {registers : MDBThreadState32}

theorem move_callTo (live : port ∈ target.live)
    (current : (target.thread port).registers = .state32 registers)
    (unpatched : target.memory registers.pc ≠ int_3) (registers' : MDBThreadState32) :
    ThreadMove armed ⟨target, []⟩ ⟨callTo port registers' target, []⟩ := by
  apply ThreadMove.execute live List.not_mem_nil current
  rintro ⟨_, patched⟩
  exact unpatched patched

theorem move_setRegisters (live : port ∈ target.live)
    (current : (target.thread port).registers = .state32 registers)
    (unpatched : target.memory registers.pc ≠ int_3) (registers' : MDBThreadState32) :
    ThreadMove armed ⟨target, []⟩ ⟨target.setRegisters port registers', []⟩ := by
  have move : ThreadMove armed ⟨target, []⟩ ⟨{ target.setRegisters port registers' with
      memory := (target.setRegisters port registers').memory }, []⟩ := by
    apply ThreadMove.execute live List.not_mem_nil current
    rintro ⟨_, patched⟩
    exact unpatched patched
  exact move

end Moves

theorem enters_crossCall : ThreadMove freedAtCall.EnabledAt ⟨freedAtCall.target, []⟩
    ⟨enterCall freedAtCall.target, []⟩ := by
  apply move_callTo (by decide) rfl
  decide

theorem leaves_crossCall : ThreadMove freedAtCall.EnabledAt ⟨enterCall freedAtCall.target, []⟩
    ⟨leaveCall (enterCall freedAtCall.target), []⟩ := by
  apply move_setRegisters (by decide) rfl
  decide

theorem enabledAt_freedAtCall : freedAtCall.EnabledAt 0x1005#64 :=
  enabledAt_steppedOver atCall callDecoder callingThread

theorem hits_crossCall : ThreadMove freedAtCall.EnabledAt
    ⟨leaveCall (enterCall freedAtCall.target), []⟩ ⟨crossCall freedAtCall.target, [1]⟩ := by
  have live : 1 ∈ (leaveCall (enterCall freedAtCall.target)).live := by decide
  have patched : (leaveCall (enterCall freedAtCall.target)).memory
      (registersWith 0x1005#32 0x8000#32).pc = int_3 := by
    decide
  exact .hit live List.not_mem_nil rfl enabledAt_freedAtCall patched

theorem hitsAt_crossCall : HitsAt freedAtCall.EnabledAt freedAtCall.target
    stoppedAfterCall.target 1 0x1005#32 := by
  exact ⟨leaveCall (enterCall freedAtCall.target), [], [1], registersWith 0x1005#32 0x8000#32,
    .tail (.single enters_crossCall) leaves_crossCall, by decide, List.not_mem_nil, rfl, rfl,
    enabledAt_freedAtCall, by decide, .refl⟩

theorem exists_stepOver_atCall : ∃ after, atCall.stepOver callDecoder 0 = some (true, after) := by
  exact ⟨_, rfl⟩

theorem stepOver_stops_behind_atCall :
    ∃ after, atCall.stepOver callDecoder 0 = some (true, after) ∧
      after.programCounter 1 ≠ some (atCall.afterCall callDecoder callingThread) ∧
      after.programCounter 1 = some (atCall.afterCall callDecoder callingThread + 1) := by
  rcases exists_stepOver_atCall with ⟨after, stepped⟩
  have hits : HitsAt freedAtCall.EnabledAt freedAtCall.target stoppedAfterCall.target 1
      (atCall.afterCall callDecoder callingThread) := by
    rw [afterCall_atCall]
    exact hitsAt_crossCall
  have present : atCall.process.threads[0]? = some callingThread := rfl
  exact ⟨after, stepped, stepOver_stops_behind present rfl internalWait_freedAtCall hits stepped⟩

/-- The thread comes back from the call to `0x1005` and is left at `0x1006`. -/
theorem stepOver_leaves_0x1006 :
    ∃ after, atCall.afterCall callDecoder callingThread = 0x1005#32 ∧
      freedAtCall.internalWait SIG_TRAP = some (.PRS_STOPPED, stoppedAfterCall) ∧
      HitsAt freedAtCall.EnabledAt freedAtCall.target stoppedAfterCall.target 1 0x1005#32 ∧
      atCall.stepOver callDecoder 0 = some (true, after) ∧
      after.programCounter 1 = some 0x1006#32 ∧ after.programCounter 1 ≠ some 0x1005#32 := by
  exact ⟨_, afterCall_atCall, internalWait_freedAtCall, hitsAt_crossCall, rfl, rfl, by decide⟩

end RustDbg.Session
