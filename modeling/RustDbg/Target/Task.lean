import Mathlib.Logic.Function.Iterate
import RustDbg.Target.Memory

/-!
# The target task

The kernel's view of the debugged task: its memory, its live threads with their
registers and suspend counts, and the suspend count of the task. Mach calls on a
thread succeed when the thread is live, and the two flavors of thread state apply
to a thread of their own width only.
-/

namespace RustDbg

abbrev ThreadPort := Nat

structure MDBThreadState32 where
  eax : BitVec 32
  ebx : BitVec 32
  ecx : BitVec 32
  edx : BitVec 32
  edi : BitVec 32
  esi : BitVec 32
  ebp : BitVec 32
  esp : BitVec 32
  ss : BitVec 32
  eflags : BitVec 32
  eip : BitVec 32
  cs : BitVec 32
  ds : BitVec 32
  es : BitVec 32
  fs : BitVec 32
  gs : BitVec 32
deriving DecidableEq, Repr, Inhabited

structure MDBThreadState64 where
  rax : BitVec 64
  rbx : BitVec 64
  rcx : BitVec 64
  rdx : BitVec 64
  rdi : BitVec 64
  rsi : BitVec 64
  rbp : BitVec 64
  rsp : BitVec 64
  r8 : BitVec 64
  r9 : BitVec 64
  r10 : BitVec 64
  r11 : BitVec 64
  r12 : BitVec 64
  r13 : BitVec 64
  r14 : BitVec 64
  r15 : BitVec 64
  rip : BitVec 64
  rflags : BitVec 64
  cs : BitVec 64
  fs : BitVec 64
  gs : BitVec 64
deriving DecidableEq, Repr, Inhabited

/-- The trap flag, bit 8 of the flags register. -/
def trapBit (width : Nat) : BitVec width := BitVec.ofNat width 0x100

/-- `flags |= 0x100UL` or `flags &= ~0x100UL` -/
def setTrapBit {width : Nat} (flags : BitVec width) (flag : Bool) : BitVec width :=
  if flag then flags ||| trapBit width else flags &&& ~~~trapBit width

def MDBThreadState32.withTrapFlag (state : MDBThreadState32) (flag : Bool) : MDBThreadState32 :=
  { state with eflags := setTrapBit state.eflags flag }

def MDBThreadState64.withTrapFlag (state : MDBThreadState64) (flag : Bool) : MDBThreadState64 :=
  { state with rflags := setTrapBit state.rflags flag }

/-- The address of the instruction a 32-bit thread executes next. -/
def MDBThreadState32.pc (state : MDBThreadState32) : Address := state.eip.setWidth 64

/-- The registers of a thread, which has one width. -/
inductive RegisterFile where
  | state32 (registers : MDBThreadState32)
  | state64 (registers : MDBThreadState64)
deriving DecidableEq, Repr, Inhabited

/-- `TH_STATE_RUNNING` to `TH_STATE_HALTED` -/
inductive RunState where
  | running
  | stopped
  | waiting
  | uninterruptible
  | halted
deriving DecidableEq, Repr, Inhabited

/-- The fields of `thread_basic_info` that the debugger uses. -/
structure MDBThreadInfo where
  runState : RunState
  suspendCount : Nat
deriving DecidableEq, Repr, Inhabited

structure TargetThread where
  registers : RegisterFile
  info : MDBThreadInfo
deriving DecidableEq, Repr, Inhabited

/-- The target task as the kernel keeps it. -/
structure Target where
  memory : Memory
  /-- The ports `task_threads` lists, in its order. -/
  live : List ThreadPort
  /-- The state of the live threads; what it says of other ports is never used. -/
  thread : ThreadPort → TargetThread
  suspendCount : Nat
  /-- Whether `pid_for_task` succeeds. -/
  pidKnown : Bool

namespace Target

/-- An effect on a thread, or none when the call on it fails. -/
def modifyThread (target : Target) (port : ThreadPort) (effect : TargetThread → TargetThread) :
    Target :=
  if port ∈ target.live then
    { target with thread := Function.update target.thread port (effect (target.thread port)) }
  else target

def threadInfo (target : Target) (port : ThreadPort) : Option MDBThreadInfo :=
  if port ∈ target.live then some (target.thread port).info else none

def threadGetState32 (target : Target) (port : ThreadPort) : Option MDBThreadState32 :=
  if port ∈ target.live then
    match (target.thread port).registers with
    | .state32 registers => some registers
    | .state64 _ => none
  else none

def threadGetState64 (target : Target) (port : ThreadPort) : Option MDBThreadState64 :=
  if port ∈ target.live then
    match (target.thread port).registers with
    | .state32 _ => none
    | .state64 registers => some registers
  else none

def threadSetState32 (target : Target) (port : ThreadPort) (registers : MDBThreadState32) :
    Target :=
  target.modifyThread port fun thread =>
    match thread.registers with
    | .state32 _ => { thread with registers := .state32 registers }
    | .state64 _ => thread

/-- `thread_abort`, which ends the wait of a waiting thread. -/
def threadAbort (target : Target) (port : ThreadPort) : Target :=
  target.modifyThread port fun thread =>
    { thread with info := { thread.info with runState := .running } }

def threadSuspend (target : Target) (port : ThreadPort) : Target :=
  target.modifyThread port fun thread =>
    { thread with info := { thread.info with suspendCount := thread.info.suspendCount + 1 } }

def threadResume (target : Target) (port : ThreadPort) : Target :=
  target.modifyThread port fun thread =>
    { thread with info := { thread.info with suspendCount := thread.info.suspendCount - 1 } }

def taskResume (target : Target) : Target :=
  { target with suspendCount := target.suspendCount - 1 }

/-- The registers of a 32-bit thread become others as it runs. -/
def setRegisters (target : Target) (port : ThreadPort) (registers : MDBThreadState32) : Target :=
  target.modifyThread port fun thread => { thread with registers := .state32 registers }

def threadSuspendCount (target : Target) (port : ThreadPort) : Nat :=
  (target.thread port).info.suspendCount

/-! ## What a call on one thread leaves alone -/

variable (target : Target) (port other : ThreadPort) (effect : TargetThread → TargetThread)

@[simp]
theorem memory_modifyThread : (target.modifyThread port effect).memory = target.memory := by
  simp only [modifyThread]
  split <;> rfl

@[simp]
theorem live_modifyThread : (target.modifyThread port effect).live = target.live := by
  simp only [modifyThread]
  split <;> rfl

@[simp]
theorem suspendCount_modifyThread :
    (target.modifyThread port effect).suspendCount = target.suspendCount := by
  simp only [modifyThread]
  split <;> rfl

@[simp]
theorem pidKnown_modifyThread : (target.modifyThread port effect).pidKnown = target.pidKnown := by
  simp only [modifyThread]
  split <;> rfl

variable {target port other}

theorem thread_modifyThread_self (live : port ∈ target.live) :
    (target.modifyThread port effect).thread port = effect (target.thread port) := by
  simp [modifyThread, live]

theorem thread_modifyThread_of_ne (different : other ≠ port) :
    (target.modifyThread port effect).thread other = target.thread other := by
  simp only [modifyThread]
  split
  · exact Function.update_of_ne different _ _
  · rfl

theorem modifyThread_of_notMem (dead : port ∉ target.live) :
    target.modifyThread port effect = target := by
  simp [modifyThread, dead]

/-- The state of a thread can be read when it is live and 32 bits wide. -/
theorem threadGetState32_eq_some_iff {registers : MDBThreadState32} :
    target.threadGetState32 port = some registers ↔
      port ∈ target.live ∧ (target.thread port).registers = .state32 registers := by
  by_cases live : port ∈ target.live
  · cases current : (target.thread port).registers <;> simp [threadGetState32, live, current]
  · simp [threadGetState32, live]

theorem registers_setRegisters (live : port ∈ target.live) (registers : MDBThreadState32)
    (other : ThreadPort) :
    ((target.setRegisters port registers).thread other).registers =
      if other = port then .state32 registers else (target.thread other).registers := by
  split
  · rename_i same
    subst same
    simp only [setRegisters, thread_modifyThread_self _ live]
  · rename_i different
    simp only [setRegisters, thread_modifyThread_of_ne _ different]

end Target

end RustDbg
