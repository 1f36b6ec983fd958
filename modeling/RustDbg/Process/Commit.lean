import RustDbg.Process.Gather

/-!
# Committing a thread

The debugger edits the cached 32-bit state of a thread and writes all of it back.
What arrives in the target is what was asked for exactly when the cache held the
target's registers. `machIs64Bit` always answers yes, so gathering refreshes the
64-bit cache, which no commit uses.
-/

namespace RustDbg

/-- The registers with the program counter moved by a signed offset. -/
def RegisterFile.advance (registers : RegisterFile) (offset : BitVec 32) : RegisterFile :=
  match registers with
  | .state32 state => .state32 { state with eip := state.eip + offset }
  | .state64 state => .state64 { state with rip := state.rip + offset.signExtend 64 }

def RegisterFile.withTrapFlag (registers : RegisterFile) (flag : Bool) : RegisterFile :=
  match registers with
  | .state32 state => .state32 (state.withTrapFlag flag)
  | .state64 state => .state64 (state.withTrapFlag flag)

theorem Target.registers_threadSetState32 {target : Target} {port : ThreadPort}
    (live : port ∈ target.live) (state : MDBThreadState32) :
    ((target.threadSetState32 port state).thread port).registers =
      match (target.thread port).registers with
      | .state32 _ => .state32 state
      | .state64 registers => .state64 registers := by
  simp only [threadSetState32, thread_modifyThread_self _ live]
  cases registers_eq : (target.thread port).registers <;> simp [registers_eq]

theorem advance32_inj {left right : MDBThreadState32} {offset : BitVec 32} :
    ({ left with eip := left.eip + offset } : MDBThreadState32) =
      { right with eip := right.eip + offset } ↔ left = right := by
  cases left
  cases right
  simp

theorem advance64_eq_self_iff {state : MDBThreadState64} {offset : BitVec 32} :
    ({ state with rip := state.rip + offset.signExtend 64 } : MDBThreadState64) = state ↔
      offset = 0#32 := by
  have extended : offset.signExtend 64 = 0#64 ↔ offset = 0#32 := by
    rw [← BitVec.toInt_inj, BitVec.toInt_signExtend_of_le (by omega), ← BitVec.toInt_inj]
    simp
  rw [← extended]
  cases state
  simp

namespace MDBProcess

variable {process : MDBProcess} {target : Target} {index : Nat} {thread : MDBThread}

theorem getElem?_modify_self {effect : MDBThread → MDBThread}
    (present : process.threads[index]? = some thread) :
    (process.threads.modify index effect)[index]? = some (effect thread) := by
  simp [present]

theorem registers_updateInstructionPointer (present : process.threads[index]? = some thread)
    (live : thread.thread ∈ target.live) (offset : BitVec 32) :
    ((process.updateInstructionPointerAndCommitState target index offset).2.thread
        thread.thread).registers =
      match (target.thread thread.thread).registers with
      | .state32 _ => .state32 { thread.state32 with eip := thread.state32.eip + offset }
      | .state64 registers => .state64 registers := by
  simp only [updateInstructionPointerAndCommitState, machCommitThread,
    getElem?_modify_self present]
  exact Target.registers_threadSetState32 live _

theorem registers_enableSingleStep (present : process.threads[index]? = some thread)
    (live : thread.thread ∈ target.live) (flag : Bool) :
    ((process.enableSingleStep target index flag).2.thread thread.thread).registers =
      match (target.thread thread.thread).registers with
      | .state32 _ => .state32 (thread.state32.withTrapFlag flag)
      | .state64 registers => .state64 registers := by
  simp only [enableSingleStep, machCommitThread, getElem?_modify_self present]
  exact Target.registers_threadSetState32 live _

/-- The condition under which an offset reaches a thread and nothing else of it changes. -/
def OffsetReaches (process : MDBProcess) (target : Target) (port : ThreadPort)
    (offset : BitVec 32) : Prop :=
  match (target.thread port).registers with
  | .state32 registers => process.is64Bit = false ∨ (process.entry port).state32 = registers
  | .state64 _ => offset = 0#32

/-- The condition under which the trap flag reaches a thread and nothing else of it changes. -/
def TrapFlagReaches (process : MDBProcess) (target : Target) (port : ThreadPort)
    (flag : Bool) : Prop :=
  match (target.thread port).registers with
  | .state32 registers => process.is64Bit = false ∨
      (process.entry port).state32.withTrapFlag flag = registers.withTrapFlag flag
  | .state64 registers => registers.withTrapFlag flag = registers

theorem state32_gatherThreads {registers : MDBThreadState32} (distinct : process.ports.Nodup)
    (present : (process.gatherThreads target).threads[index]? = some thread)
    (live : thread.thread ∈ target.live)
    (wide : (target.thread thread.thread).registers = .state32 registers) :
    thread.state32 =
      if process.is64Bit then (process.entry thread.thread).state32 else registers := by
  have gathered := entry_eq_of_getElem? (nodup_ports_gatherThreads distinct) present
  simp only [entry_gatherThreads, if_pos live] at gathered
  rw [← gathered]
  simp [MDBThread.update, Target.threadGetState32, live, wide]

/--
Right after a gathering, moving the program counter and setting the trap flag of a
live thread change just that in the target iff the cache that is committed was
refreshed from it or agreed with it before.
-/
theorem commit_changes_only_asked_iff (distinct : process.ports.Nodup)
    (present : (process.gatherThreads target).threads[index]? = some thread)
    (live : thread.thread ∈ target.live) (offset : BitVec 32) (flag : Bool) :
    ((((process.gatherThreads target).updateInstructionPointerAndCommitState target index
          offset).2.thread thread.thread).registers =
        (target.thread thread.thread).registers.advance offset ↔
      process.OffsetReaches target thread.thread offset) ∧
    ((((process.gatherThreads target).enableSingleStep target index flag).2.thread
          thread.thread).registers =
        (target.thread thread.thread).registers.withTrapFlag flag ↔
      process.TrapFlagReaches target thread.thread flag) := by
  rw [registers_updateInstructionPointer present live, registers_enableSingleStep present live]
  cases wide : (target.thread thread.thread).registers with
  | state32 registers =>
      have cached := state32_gatherThreads distinct present live wide
      simp only [RegisterFile.advance, RegisterFile.withTrapFlag, RegisterFile.state32.injEq,
        advance32_inj, OffsetReaches, TrapFlagReaches, wide, cached]
      cases process.is64Bit <;> simp
  | state64 registers =>
      simp only [RegisterFile.advance, RegisterFile.withTrapFlag, RegisterFile.state64.injEq,
        OffsetReaches, TrapFlagReaches, wide]
      exact ⟨eq_comm.trans advance64_eq_self_iff, eq_comm⟩

def taskAt0x2000 : Target where
  memory _ := 0x90#8
  live := [1]
  thread _ := ⟨.state32 { (default : MDBThreadState32) with eip := 0x2000#32 }, ⟨.stopped, 0⟩⟩
  suspendCount := 0
  pidKnown := true

theorem commit_changes_only_asked_iff_at0x2000 :
    (((((create fun _ => default).gatherThreads taskAt0x2000).updateInstructionPointerAndCommitState
          taskAt0x2000 0 (-1)).2.thread 1).registers =
        (taskAt0x2000.thread 1).registers.advance (-1) ↔
      (create fun _ => default).OffsetReaches taskAt0x2000 1 (-1)) ∧
    (((((create fun _ => default).gatherThreads taskAt0x2000).enableSingleStep
          taskAt0x2000 0 true).2.thread 1).registers =
        (taskAt0x2000.thread 1).registers.withTrapFlag true ↔
      (create fun _ => default).TrapFlagReaches taskAt0x2000 1 true) :=
  commit_changes_only_asked_iff (by decide)
    (show ((create fun _ => default).gatherThreads taskAt0x2000).threads[0]? =
      some { (default : MDBThread) with thread := 1, info := ⟨.stopped, 0⟩ } from rfl)
    (by decide) (-1) true

/-- Stepping back a thread that stopped at `0x2000` does not leave it at `0x1FFF`. -/
theorem not_advance_of_stale_cache :
    ((((create fun _ => default).gatherThreads taskAt0x2000).updateInstructionPointerAndCommitState
        taskAt0x2000 0 (-1)).2.thread 1).registers ≠
      (taskAt0x2000.thread 1).registers.advance (-1) := by
  decide

end MDBProcess

end RustDbg
