import RustDbg.Breakpoint.Access
import RustDbg.Process.Commit

/-!
# Debugging sessions

A session is an `MDBDebugger` attached to a target, together with what its
environment will answer: the events the coming calls of `waitpid` will see and the
outcomes of the coming memory accesses. Three history variables record what
the session has observed and called; no function of the source reads them.

Where no class is named, a function on threads is one of `MDBProcess` and a function
on breakpoints one of `MDBBreakpoint`.
-/

namespace RustDbg

abbrev Signal := Nat

def SIG_TRAP : Signal := 5

def EINTR : Nat := 4

inductive MDBProcessRunState where
  | PRS_UNKNOWN
  | PRS_STOPPED
  | PRS_RUNNING
  | PRS_TERMINATED
deriving DecidableEq, Repr

/-- What a call of `waitpid(pid, &status, 0)` reports. -/
inductive WaitOutcome where
  /-- It returns -1 and sets `errno`. -/
  | failed (errno : Nat)
  | exited (code : Nat)
  | signaled (signal : Signal)
  /-- The target stopped; if the stop is continued, `PT_CONTINUE` fails with the given `errno`. -/
  | stopped (signal : Signal) (continueError : Option Nat)
deriving DecidableEq, Repr

/-- The wait reports that the target is gone. -/
def WaitOutcome.IsDeath : WaitOutcome → Prop
  | .exited _ | .signaled _ => True
  | .failed _ | .stopped .. => False

/--
What happens until a call of `waitpid` returns: the target after it ran and the
outcome. It is `none` when the call does not return.
-/
abbrev WaitEvent := Target → Option (Target × WaitOutcome)

/-- A return of `internalWait` and what was known by then. -/
structure WaitReturn where
  state : MDBProcessRunState
  running : Bool
  observed : List WaitOutcome
deriving DecidableEq, Repr

structure Session where
  target : Target
  breakpoints : List MDBBreakpoint
  transientBreakpoints : List MDBBreakpoint
  /-- `MDBDebugger::threads`, pointers into the thread table of the process. -/
  threads : List Nat
  process : MDBProcess
  errno : Nat
  /-- What the coming calls of `waitpid` will see. -/
  events : List WaitEvent
  /-- The outcomes of the coming memory accesses; all further ones succeed. -/
  accesses : List AccessOutcome
  /-- What the memory of the next breakpoint holds before it is constructed. -/
  unusedPatch : Nat → Byte
  /-- What a buffer on the stack holds before it is read into from an address. -/
  unusedBuffer : Address → Nat → Byte
  /-- History: the threads stepped back and the breakpoints whose callback was run for them. -/
  reached : List (ThreadPort × BreakpointRef)
  observed : List WaitOutcome
  waits : List WaitReturn

namespace Session

/--
The session of a debugger that `createProcess` has attached to a target, with zeros
in all memory that the source does not initialize.
-/
def attached (target : Target) (events : List WaitEvent) : Session where
  target
  breakpoints := []
  transientBreakpoints := []
  threads := []
  process := (MDBProcess.create fun _ => default).gatherThreads target
  errno := 0
  events
  accesses := []
  unusedPatch _ := 0#8
  unusedBuffer _ _ := 0#8
  reached := []
  observed := []
  waits := []

/-! ## Breakpoints -/

def breakpointState (session : Session) : BreakpointState :=
  ⟨session.target.memory, session.breakpoints, session.transientBreakpoints⟩

def withBreakpointState (session : Session) (state : BreakpointState) : Session :=
  { session with
    target := { session.target with memory := state.memory }
    breakpoints := state.breakpoints
    transientBreakpoints := state.transientBreakpoints }

/-- The outcome of the next memory access and the session without it. -/
def nextAccess (session : Session) : AccessOutcome × Session :=
  (session.accesses.headD .success, { session with accesses := session.accesses.tail })

theorem readOk_nextAccess {session : Session} (accesses : session.accesses = []) :
    session.nextAccess.1.readOk = true := by
  simp [nextAccess, accesses, AccessOutcome.success]

def enable (session : Session) (ref : BreakpointRef) (enable : Bool) : Session :=
  let (outcome, session) := session.nextAccess
  session.withBreakpointState (session.breakpointState.enable outcome ref enable)

def disable (session : Session) (ref : BreakpointRef) : Session := session.enable ref false

/-- `MDBDebugger::createBreakpoint(address)` -/
def createBreakpoint (session : Session) (address : Address) : BreakpointRef × Session :=
  let patch := session.unusedPatch session.breakpoints.length
  let (ref, state) := session.breakpointState.createBreakpoint address none patch
  (ref, session.withBreakpointState state)

/-- `MDBDebugger::deleteBreakpoints(transientBreakpoints)`, with the assertion it makes. -/
def deleteTransientBreakpoints (session : Session) : Option Session :=
  if session.transientBreakpoints.any (·.enabled) then none
  else some { session with transientBreakpoints := [] }

/-- The result of `findBreakpoint(address)` if it is a breakpoint that is enabled. -/
def findEnabled (session : Session) (address : Address) : Option BreakpointRef :=
  match session.breakpointState.findBreakpoint address with
  | none => none
  | some ref =>
      if (session.breakpointState.deref ref).any (·.enabled) then some ref else none

/-- `MDBBreakpoint::onBreakpointReached` for a thread; a callback does not touch the session. -/
def onBreakpointReached (session : Session) (port : ThreadPort) (ref : BreakpointRef) : Session :=
  { session with reached := session.reached ++ [(port, ref)] }

/-! ## Instructions -/

/-- The instruction at an address, read through `MDBDebugger::read` into a buffer of 32 bytes. -/
def decodeAt (ud : Udis86) (session : Session) (address : Address) :
    DecodedInstruction × Session :=
  let (outcome, session) := session.nextAccess
  let buffer := (List.range 32).map (session.unusedBuffer address)
  -- A failed read is only logged.
  (ud (session.breakpointState.read outcome.readOk buffer address).1, session)

def isCallInstruction (ud : Udis86) (session : Session) (address : Address) : Bool × Session :=
  let (instruction, session) := session.decodeAt ud address
  (instruction.mnemonic = .UD_Icall, session)

def getInstructionLength (ud : Udis86) (session : Session) (address : Address) : Nat × Session :=
  let (instruction, session) := session.decodeAt ud address
  (instruction.size, session)

/-! ## Threads -/

def gatherThreads (session : Session) : Session :=
  { session with process := session.process.gatherThreads session.target }

def enableSingleStep (session : Session) (index : Nat) (enable : Bool) : Session :=
  let (process, target) := session.process.enableSingleStep session.target index enable
  { session with process, target }

def updateInstructionPointerAndCommitState (session : Session) (index : Nat)
    (offset : BitVec 32) : Session :=
  let (process, target) :=
    session.process.updateInstructionPointerAndCommitState session.target index offset
  { session with process, target }

def machSuspendAllThreads (session : Session) : Session :=
  { session with target := session.process.machSuspendAllThreads session.target }

/-- `MDBProcess::machResumeThread` on the thread a pointer points to. -/
def machResumeThread (session : Session) (index : Nat) : Session :=
  match session.process.threads[index]? with
  | some thread => { session with target := (session.target.machResumeThread thread.thread).2 }
  | none => session

def machResumeTask (session : Session) : Session :=
  { session with target := session.target.machResumeTask }

/-- `MDBProcess::machResumeThreadsAndTask`, whose result no caller looks at. -/
def machResumeThreadsAndTask (session : Session) : Session :=
  { session with target := (session.process.machResumeThreadsAndTask session.target).2 }

/-- `MDBDebugger::resumeAllThreadsAndTask`, over the debugger's own list of threads. -/
def resumeAllThreadsAndTask (session : Session) : Session :=
  (session.threads.foldl machResumeThread session).machResumeTask

end Session

end RustDbg
