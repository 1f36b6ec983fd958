import RustDbg.Target.Task

/-!
# The debugged process and its threads

`MDBProcess` and `MDBThread`: the table of threads the debugger has seen, the
cached state of each, and the suspend counts. A pointer to a thread is its
position in `MDBProcess::threads`, from which no thread is ever removed.
-/

namespace RustDbg

structure MDBThread where
  thread : ThreadPort
  info : MDBThreadInfo
  state32 : MDBThreadState32
  state64 : MDBThreadState64
deriving DecidableEq, Repr, Inhabited

structure MDBProcess where
  running : Bool
  is64Bit : Bool
  threads : List MDBThread
  /-- What the memory of a new `MDBThread` for a port holds; its constructor sets the port only. -/
  uninitialized : ThreadPort → MDBThread

/-- `MDBProcess::machUpdateThread`: what a Mach call that fails would have set stays. -/
def MDBThread.update (thread : MDBThread) (is64Bit : Bool) (target : Target) : MDBThread where
  thread := thread.thread
  info := (target.threadInfo thread.thread).getD thread.info
  state32 :=
    if is64Bit then thread.state32
    else (target.threadGetState32 thread.thread).getD thread.state32
  state64 :=
    if is64Bit then (target.threadGetState64 thread.thread).getD thread.state64
    else thread.state64

namespace MDBProcess

def machIs64Bit : Bool := true

/-- The constructor of `MDBProcess`. -/
def create (uninitialized : ThreadPort → MDBThread) : MDBProcess where
  running := true
  is64Bit := machIs64Bit
  threads := []
  uninitialized

def ports (process : MDBProcess) : List ThreadPort := process.threads.map (·.thread)

/-! ## Gathering threads -/

def findThread (process : MDBProcess) (port : ThreadPort) : Option Nat :=
  process.threads.findIdx? (·.thread == port)

/-- `MDBProcess::machUpdateThread` on the thread a pointer points to. -/
def machUpdateThread (process : MDBProcess) (target : Target) (index : Nat) : MDBProcess :=
  { process with
    threads := process.threads.modify index fun thread => thread.update process.is64Bit target }

/-- One iteration of the loop of `MDBProcess::gatherThreads`. -/
def gatherThread (target : Target) (process : MDBProcess) (port : ThreadPort) : MDBProcess :=
  match process.findThread port with
  | some index => process.machUpdateThread target index
  | none =>
      let thread := { process.uninitialized port with thread := port }
      { process with threads := process.threads ++ [thread] }.machUpdateThread target
        process.threads.length

/-- `MDBProcess::gatherThreads`, with `task_threads` and `vm_deallocate` succeeding. -/
def gatherThreads (process : MDBProcess) (target : Target) : MDBProcess :=
  target.live.foldl (gatherThread target) process

def machSignalTerminated (process : MDBProcess) : MDBProcess := { process with running := false }

/-! ## Committing thread state -/

def machCommitThread (process : MDBProcess) (target : Target) (index : Nat) : Target :=
  match process.threads[index]? with
  | some thread => target.threadSetState32 thread.thread thread.state32
  | none => target

/-- `MDBThread::updateInstructionPointerAndCommitState(offset)` -/
def updateInstructionPointerAndCommitState (process : MDBProcess) (target : Target) (index : Nat)
    (offset : BitVec 32) : MDBProcess × Target :=
  let process := { process with
    threads := process.threads.modify index fun thread =>
      { thread with state32 := { thread.state32 with eip := thread.state32.eip + offset } } }
  (process, process.machCommitThread target index)

/-- `MDBDebugger::enableSingleStep(thread, enable)` -/
def enableSingleStep (process : MDBProcess) (target : Target) (index : Nat) (enable : Bool) :
    MDBProcess × Target :=
  let process := { process with
    threads := process.threads.modify index fun thread =>
      { thread with state32 := thread.state32.withTrapFlag enable } }
  (process, process.machCommitThread target index)

end MDBProcess

/-! ## Suspending and resuming -/

namespace Target

/-- `MDBProcess::machResumeThread`; `MDBDebugger::resumeThread` without its task resumption. -/
def machResumeThread (target : Target) (port : ThreadPort) : Bool × Target :=
  match target.threadInfo port with
  | none => (false, target)
  | some info =>
      -- A thread that stopped because of a trap is waiting and must be aborted first.
      let target := if info.runState = .waiting then target.threadAbort port else target
      (true, (threadResume · port)^[info.suspendCount] target)

/-- `MDBProcess::machSuspendThread` and `MDBDebugger::suspendThread` -/
def machSuspendThread (target : Target) (port : ThreadPort) : Target :=
  match target.threadInfo port with
  | none => target
  | some info => if info.suspendCount = 0 then target.threadSuspend port else target

/--
`MDBProcess::machResumeTask` and `MDBDebugger::resumeTask`: `task_resume` is
called until `task_info` reports a suspend count of 0.
-/
def machResumeTask (target : Target) : Target := taskResume^[target.suspendCount] target

end Target

namespace MDBProcess

def machSuspendAllThreads (process : MDBProcess) (target : Target) : Target :=
  process.threads.foldl (fun target thread => target.machSuspendThread thread.thread) target

/-- The loop of `MDBProcess::machResumeThreadsAndTask`. -/
def resumeThreads : List MDBThread → Target → Bool × Target
  | [], target => (true, target.machResumeTask)
  | thread :: rest, target =>
      let (resumed, target) := target.machResumeThread thread.thread
      if resumed = false then (false, target) else resumeThreads rest target

def machResumeThreadsAndTask (process : MDBProcess) (target : Target) : Bool × Target :=
  resumeThreads process.threads target

end MDBProcess

end RustDbg
