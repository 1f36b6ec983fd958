import RustDbg.Debugger.Quiet

/-!
# The commands of the debugger

`MDBDebugger::step`, `stepOver` and `resume` as partial functions on sessions: a
command has no result when one of its waits does not return. What comes before a
wait is split off, so that the moment at which the target is let run can be spoken
about.
-/

namespace RustDbg

namespace Session

/-! ## Single steps -/

/--
The common part of `MDBDebugger::step` and `checkForBreakpointsAndStep` up to their
wait: every thread is suspended but the one that is to execute a single instruction.
-/
def singleStepToWait (session : Session) (index : Nat) : Session :=
  let session := (session.enableSingleStep index true).machSuspendAllThreads
  (session.machResumeThread index).machResumeTask

/-- `MDBDebugger::step(thread, resumeAll)`, which does not look at `resumeAll`. -/
def step (session : Session) (index : Nat) : Option (Bool × Session) := do
  let thread ← session.process.threads[index]?
  let breakpoint := session.findEnabled thread.state32.pc
  let session := breakpoint.elim session session.disable
  let (state, session) ← (session.singleStepToWait index).internalWait SIG_TRAP
  let session := if state = .PRS_STOPPED then session.enableSingleStep index false else session
  return (true, breakpoint.elim session (session.enable · true))

/-- What `checkForBreakpointsAndStep` does for a thread that stands at an enabled breakpoint. -/
def stepOff (session : Session) (index : Nat) (breakpoint : BreakpointRef) : Option Session := do
  let session := session.disable breakpoint
  let (state, session) ← (session.singleStepToWait index).internalWait SIG_TRAP
  if state = .PRS_STOPPED then return (session.enableSingleStep index false).enable breakpoint true
  else return session

/-- Suspending and resuming threads for a single step changes no execution. -/
theorem resumedAlone (session : Session) (index : Nat) :
    ∃ target, session.target.SameExecution target ∧
      (session.machSuspendAllThreads.machResumeThread index).machResumeTask =
        { session with target } := by
  have suspended := MDBProcess.sameExecution_machSuspendAllThreads session.process session.target
  simp only [machResumeThread]
  split
  · exact ⟨_, (suspended.trans (Target.sameExecution_machResumeThread ..)).trans
      (Target.sameExecution_machResumeTask _), rfl⟩
  · exact ⟨_, suspended.trans (Target.sameExecution_machResumeTask _), rfl⟩

/-- A single step is prepared by setting the trap flag, and suspensions and resumptions. -/
theorem exists_singleStepToWait_eq (session : Session) (index : Nat) :
    ∃ target, (session.enableSingleStep index true).target.SameExecution target ∧
      session.singleStepToWait index = { session.enableSingleStep index true with target } :=
  resumedAlone (session.enableSingleStep index true) index

theorem Quiet.singleStepToWait (session : Session) (index : Nat) :
    Quiet session (session.singleStepToWait index) :=
  (((Quiet.enableSingleStep session index true).trans (.machSuspendAllThreads _)).trans
    (.machResumeThread _ index)).trans (.machResumeTask _)

/-- A step-off waits once, for the session it has prepared. -/
theorem stepOff_cases {session next : Session} {index : Nat} {breakpoint : BreakpointRef}
    (stepped : session.stepOff index breakpoint = some next) :
    ∃ state waited,
      ((session.disable breakpoint).singleStepToWait index).internalWait SIG_TRAP =
        some (state, waited) ∧
      next = if state = .PRS_STOPPED
        then (waited.enableSingleStep index false).enable breakpoint true else waited := by
  simp only [stepOff, Option.bind_eq_bind, Option.bind_eq_some_iff, Prod.exists] at stepped
  rcases stepped with ⟨state, waited, returned, result⟩
  refine ⟨state, waited, returned, ?_⟩
  split at result <;> simp_all

/-- A wait either uses up events or leaves the thread table as it is. -/
theorem internalWait_progress {session last : Session} {waitSignal : Signal}
    {state : MDBProcessRunState}
    (returned : session.internalWait waitSignal = some (state, last)) :
    last.events.length < session.events.length ∨
      last.events = session.events ∧ last.process = session.process := by
  rcases internalWait_cases returned with ⟨-, -, rfl⟩ | ⟨known, -, -⟩
  · exact Or.inr ⟨rfl, rfl⟩
  · rcases events_internalWait known returned with ⟨used, nonempty, events_eq⟩
    have positive := List.length_pos_of_ne_nil nonempty
    simp only [events_eq, List.length_append]
    omega

theorem stepOff_progress {session next : Session} {index : Nat} {breakpoint : BreakpointRef}
    (stepped : session.stepOff index breakpoint = some next) :
    next.events.length < session.events.length ∨
      next.events.length = session.events.length ∧
        next.process.threads.length = session.process.threads.length := by
  rcases stepOff_cases stepped with ⟨state, waited, returned, next_eq⟩
  have before : Quiet session ((session.disable breakpoint).singleStepToWait index) :=
    (Quiet.disable session breakpoint).trans (.singleStepToWait _ index)
  have after : Quiet waited next := by
    rw [next_eq]
    split
    · apply (Quiet.enableSingleStep waited index false).trans
      exact .enable _ breakpoint true
    · exact .refl waited
  rcases internalWait_progress returned with used | ⟨events_eq, process_eq⟩
  · left
    rwa [after.events, ← before.events]
  · right
    rw [after.events, events_eq, before.events, after.length_threads, process_eq,
      before.length_threads]
    exact ⟨rfl, rfl⟩

/-! ## Resuming -/

/-- The loop of `MDBDebugger::checkForBreakpointsAndStep` from a position of the table on. -/
def stepOffFrom (session : Session) (index : Nat) : Option Session :=
  if inTable : index < session.process.threads.length then
    match session.findEnabled session.process.threads[index].state32.pc with
    | none => session.stepOffFrom (index + 1)
    | some breakpoint =>
        match stepped : session.stepOff index breakpoint with
        | none => none
        | some next => next.stepOffFrom (index + 1)
  else some session
  termination_by (session.events.length, session.process.threads.length - index)
  decreasing_by
    · apply Prod.Lex.right _
      omega
    · rcases stepOff_progress stepped with fewer | ⟨same, sameTable⟩
      · exact Prod.Lex.left _ _ fewer
      · simp only [same, sameTable]
        apply Prod.Lex.right _
        omega

theorem stepOffFrom_of_le {session : Session} {index : Nat}
    (outside : session.process.threads.length ≤ index) :
    session.stepOffFrom index = some session := by
  rw [stepOffFrom, dif_neg (by omega)]

theorem stepOffFrom_of_getElem? {session : Session} {index : Nat} {thread : MDBThread}
    (present : session.process.threads[index]? = some thread) :
    session.stepOffFrom index =
      match session.findEnabled thread.state32.pc with
      | none => session.stepOffFrom (index + 1)
      | some breakpoint =>
          (session.stepOff index breakpoint).bind fun next => next.stepOffFrom (index + 1) := by
  rcases List.getElem?_eq_some_iff.mp present with ⟨inTable, rfl⟩
  rw [stepOffFrom, dif_pos inTable]
  split
  · rfl
  · rename_i breakpoint found
    split <;> rename_i stepped <;> rw [stepped] <;> rfl

theorem stepOffFrom_eq_self {session : Session}
    (clear : ∀ thread ∈ session.process.threads, session.findEnabled thread.state32.pc = none)
    (index : Nat) : session.stepOffFrom index = some session := by
  fun_induction stepOffFrom session index with
  | case1 session index inTable none ih => exact ih clear
  | case2 session index inTable breakpoint found =>
      simp [clear _ (List.getElem_mem inTable)] at found
  | case3 session index inTable breakpoint found =>
      simp [clear _ (List.getElem_mem inTable)] at found
  | case4 session index outside => rfl

/-- `MDBDebugger::checkForBreakpointsAndStep` -/
def checkForBreakpointsAndStep (session : Session) : Option Session := session.stepOffFrom 0

/-- One iteration of the loop of `MDBDebugger::checkForBreakpointsAndStepBack`. -/
def stepBackThread (session : Session) (index : Nat) : Session :=
  match session.process.threads[index]? with
  | none => session
  | some thread =>
      match session.findEnabled ((thread.state32.eip - 1).setWidth 64) with
      | none => session
      | some breakpoint =>
          (session.onBreakpointReached thread.thread breakpoint)
            |>.updateInstructionPointerAndCommitState index (-1)

/-- `MDBDebugger::checkForBreakpointsAndStepBack` -/
def checkForBreakpointsAndStepBack (session : Session) : Session :=
  (List.range session.process.threads.length).foldl stepBackThread session

/-- `MDBDebugger::resume` up to the wait of its free run. -/
def resumeToWait (session : Session) : Option Session :=
  session.checkForBreakpointsAndStep.map machResumeThreadsAndTask

/-- `MDBDebugger::resume` -/
def resume (session : Session) : Option (Bool × Session) := do
  let session ← session.resumeToWait
  let (state, session) ← session.internalWait SIG_TRAP
  if state ≠ .PRS_STOPPED then return (false, session)
  else return (true, session.checkForBreakpointsAndStepBack)

/-! ## Stepping over calls -/

/-- `MDBDebugger::stepOver` on a call at an address, up to the wait of its free run. -/
def stepOverToWait (session : Session) (ud : Udis86) (address : Address) : Session :=
  let session := (session.findEnabled address).elim session session.disable
  let (instructionLength, session) := session.getInstructionLength ud address
  let (transientBreakpoint, session) :=
    session.createBreakpoint (address + BitVec.ofNat 64 instructionLength)
  (session.enable transientBreakpoint true).resumeAllThreadsAndTask

/-- `MDBDebugger::stepOver(thread, resumeAll)` -/
def stepOver (ud : Udis86) (session : Session) (index : Nat) : Option (Bool × Session) := do
  let thread ← session.process.threads[index]?
  let (isCall, session) := session.isCallInstruction ud thread.state32.pc
  if isCall = false then session.step index
  else
    let breakpoint := session.findEnabled thread.state32.pc
    let (state, session) ←
      (session.stepOverToWait ud thread.state32.pc).internalWait SIG_TRAP
    if state = .PRS_STOPPED then
      let session := breakpoint.elim session (session.enable · true)
      let session ← session.deleteTransientBreakpoints
      return (true, session)
    else return (false, session)

end Session

inductive Command where
  | step (index : Nat)
  | stepOver (index : Nat)
  | resume
deriving DecidableEq, Repr

/-- Performing a command; one for a thread that is not in the table is not possible. -/
def Session.perform (ud : Udis86) (session : Session) : Command → Option Session
  | .step index => (session.step index).map (·.2)
  | .stepOver index => (session.stepOver ud index).map (·.2)
  | .resume => session.resume.map (·.2)

end RustDbg
