import RustDbg.Process.Basic

/-!
# Suspend counts

What the functions that suspend and resume do to suspend counts, and that they
do nothing else: memory, registers and the set of live threads stay as they are.
Resuming the whole task stops at the first thread that is gone, so it succeeds
exactly when no thread of the table has exited.
-/

namespace RustDbg

namespace Target

/-- The task differs at most in suspend counts and run states. -/
structure SameExecution (before after : Target) : Prop where
  memory : after.memory = before.memory
  live : after.live = before.live
  pidKnown : after.pidKnown = before.pidKnown
  registers : ∀ port, (after.thread port).registers = (before.thread port).registers

namespace SameExecution

theorem refl (target : Target) : SameExecution target target := ⟨rfl, rfl, rfl, fun _ => rfl⟩

theorem trans {first second third : Target} (left : SameExecution first second)
    (right : SameExecution second third) : SameExecution first third where
  memory := right.memory.trans left.memory
  live := right.live.trans left.live
  pidKnown := right.pidKnown.trans left.pidKnown
  registers port := (right.registers port).trans (left.registers port)

theorem modifyInfo (target : Target) (port : ThreadPort) (effect : MDBThreadInfo → MDBThreadInfo) :
    SameExecution target
      (target.modifyThread port fun thread => { thread with info := effect thread.info }) where
  memory := memory_modifyThread ..
  live := live_modifyThread ..
  pidKnown := pidKnown_modifyThread ..
  registers other := by
    by_cases same : other = port
    · subst same
      by_cases live : other ∈ target.live
      · rw [thread_modifyThread_self _ live]
      · rw [modifyThread_of_notMem _ live]
    · rw [thread_modifyThread_of_ne _ same]

theorem threadAbort (target : Target) (port : ThreadPort) :
    SameExecution target (target.threadAbort port) :=
  modifyInfo target port fun info => { info with runState := .running }

theorem threadSuspend (target : Target) (port : ThreadPort) :
    SameExecution target (target.threadSuspend port) :=
  modifyInfo target port fun info => { info with suspendCount := info.suspendCount + 1 }

theorem threadResume (target : Target) (port : ThreadPort) :
    SameExecution target (target.threadResume port) :=
  modifyInfo target port fun info => { info with suspendCount := info.suspendCount - 1 }

end SameExecution

def AllRunnable (target : Target) : Prop :=
  target.suspendCount = 0 ∧ ∀ port ∈ target.live, target.threadSuspendCount port = 0

variable {target : Target} {port other : ThreadPort}

theorem threadInfo_of_mem (live : port ∈ target.live) :
    target.threadInfo port = some (target.thread port).info := by
  simp [threadInfo, live]

theorem threadInfo_of_notMem (dead : port ∉ target.live) : target.threadInfo port = none := by
  simp [threadInfo, dead]

/-! ## Resuming one thread -/

theorem sameExecution_iterate_threadResume (count : Nat) :
    SameExecution target ((threadResume · port)^[count] target) := by
  induction count generalizing target with
  | zero => exact .refl target
  | succ count ih =>
      rw [Function.iterate_succ_apply]
      exact (SameExecution.threadResume target port).trans ih

theorem threadSuspendCount_iterate_threadResume (count : Nat) (live : port ∈ target.live) :
    ((threadResume · port)^[count] target).threadSuspendCount port =
      target.threadSuspendCount port - count := by
  induction count generalizing target with
  | zero => rfl
  | succ count ih =>
      rw [Function.iterate_succ_apply, ih (by simpa [threadResume] using live)]
      simp only [threadSuspendCount, threadResume, thread_modifyThread_self _ live]
      omega

theorem thread_iterate_threadResume_of_ne (count : Nat) (different : other ≠ port) :
    ((threadResume · port)^[count] target).thread other = target.thread other := by
  induction count generalizing target with
  | zero => rfl
  | succ count ih =>
      simp only [Function.iterate_succ_apply, ih]
      exact thread_modifyThread_of_ne _ different

theorem machResumeThread_fst_iff :
    (target.machResumeThread port).1 = true ↔ port ∈ target.live := by
  by_cases live : port ∈ target.live
  · simp [machResumeThread, threadInfo_of_mem live, live]
  · simp [machResumeThread, threadInfo_of_notMem live, live]

theorem machResumeThread_of_mem (live : port ∈ target.live) :
    ∃ awake, SameExecution target awake ∧ awake.suspendCount = target.suspendCount ∧
      awake.threadSuspendCount port = target.threadSuspendCount port ∧
      (∀ other, other ≠ port → awake.thread other = target.thread other) ∧
      (target.machResumeThread port).2 =
        (threadResume · port)^[target.threadSuspendCount port] awake := by
  by_cases waiting : (target.thread port).info.runState = .waiting
  · refine ⟨target.threadAbort port, .threadAbort target port, suspendCount_modifyThread .., ?_,
      fun other different => thread_modifyThread_of_ne _ different, ?_⟩
    · rw [threadSuspendCount, threadAbort, thread_modifyThread_self _ live]
      rfl
    · simp [machResumeThread, threadInfo_of_mem live, waiting, threadSuspendCount]
  · refine ⟨target, .refl target, rfl, rfl, fun _ _ => rfl, ?_⟩
    simp [machResumeThread, threadInfo_of_mem live, waiting, threadSuspendCount]

theorem sameExecution_machResumeThread (target : Target) (port : ThreadPort) :
    SameExecution target (target.machResumeThread port).2 := by
  by_cases live : port ∈ target.live
  · rcases machResumeThread_of_mem live with ⟨awake, same, -, -, -, eq⟩
    rw [eq]
    apply same.trans
    exact sameExecution_iterate_threadResume _
  · simpa [machResumeThread, threadInfo_of_notMem live] using .refl target

theorem threadSuspendCount_machResumeThread_self (live : port ∈ target.live) :
    (target.machResumeThread port).2.threadSuspendCount port = 0 := by
  rcases machResumeThread_of_mem live with ⟨awake, same, -, count, -, eq⟩
  simp only [eq, threadSuspendCount_iterate_threadResume _ (same.live ▸ live), count, Nat.sub_self]

theorem threadSuspendCount_machResumeThread_of_ne (different : other ≠ port) :
    (target.machResumeThread port).2.threadSuspendCount other =
      target.threadSuspendCount other := by
  by_cases live : port ∈ target.live
  · rcases machResumeThread_of_mem live with ⟨awake, -, -, -, others, eq⟩
    rw [eq, threadSuspendCount, thread_iterate_threadResume_of_ne _ different,
      others other different, threadSuspendCount]
  · simp [machResumeThread, threadInfo_of_notMem live]

theorem threadSuspendCount_machResumeThread_of_zero
    (zero : target.threadSuspendCount other = 0) :
    (target.machResumeThread port).2.threadSuspendCount other = 0 := by
  by_cases same : other = port
  · subst same
    by_cases live : other ∈ target.live
    · exact threadSuspendCount_machResumeThread_self live
    · simpa [machResumeThread, threadInfo_of_notMem live] using zero
  · simp only [threadSuspendCount_machResumeThread_of_ne same, zero]

/-! ## Resuming the task -/

theorem iterate_taskResume (count : Nat) :
    taskResume^[count] target = { target with suspendCount := target.suspendCount - count } := by
  induction count generalizing target with
  | zero => rfl
  | succ count ih =>
      simp only [Function.iterate_succ_apply, ih]
      simp only [taskResume, Target.mk.injEq, true_and, and_true]
      omega

@[simp]
theorem machResumeTask_eq (target : Target) :
    target.machResumeTask = { target with suspendCount := 0 } := by
  simp only [machResumeTask, iterate_taskResume, Nat.sub_self]

theorem sameExecution_machResumeTask (target : Target) :
    SameExecution target target.machResumeTask := by
  rw [machResumeTask_eq]
  exact ⟨rfl, rfl, rfl, fun _ => rfl⟩

/-! ## Suspending -/

theorem sameExecution_machSuspendThread (target : Target) (port : ThreadPort) :
    SameExecution target (target.machSuspendThread port) := by
  simp only [machSuspendThread]
  split
  · exact .refl target
  · split
    · exact .threadSuspend target port
    · exact .refl target

theorem threadSuspendCount_machSuspendThread (live : port ∈ target.live) :
    (target.machSuspendThread port).threadSuspendCount other =
      if other = port then max (target.threadSuspendCount port) 1
      else target.threadSuspendCount other := by
  simp only [machSuspendThread, threadInfo_of_mem live]
  by_cases same : other = port
  · subst same
    rw [if_pos rfl]
    by_cases zero : (target.thread other).info.suspendCount = 0
    · simp [zero, threadSuspendCount, threadSuspend, thread_modifyThread_self _ live]
    · simp only [if_neg zero, threadSuspendCount]
      omega
  · rw [if_neg same]
    split
    · rw [threadSuspendCount, threadSuspend, thread_modifyThread_of_ne _ same, threadSuspendCount]
    · rfl

theorem machSuspendThread_of_notMem (dead : port ∉ target.live) :
    target.machSuspendThread port = target := by
  simp [machSuspendThread, threadInfo_of_notMem dead]

theorem threadSuspendCount_le_machSuspendThread (target : Target) (port other : ThreadPort) :
    target.threadSuspendCount other ≤ (target.machSuspendThread port).threadSuspendCount other := by
  by_cases live : port ∈ target.live
  · rw [threadSuspendCount_machSuspendThread live]
    split
    · rename_i same
      rw [same]
      exact Nat.le_max_left _ _
    · exact Nat.le_refl _
  · apply Nat.le_of_eq
    rw [machSuspendThread_of_notMem live]

end Target

namespace MDBProcess

open Target

/-- Afterwards every thread of the table is suspended, whatever its count was. -/
theorem threadSuspendCount_machSuspendAllThreads {process : MDBProcess} {target : Target}
    {port : ThreadPort} (listed : port ∈ process.ports) (live : port ∈ target.live) :
    (process.machSuspendAllThreads target).threadSuspendCount port ≠ 0 := by
  have monotone : ∀ (threads : List MDBThread) (target : Target), target.threadSuspendCount port ≤
      (threads.foldl (fun target thread => target.machSuspendThread thread.thread)
        target).threadSuspendCount port := by
    intro threads target
    induction threads generalizing target with
    | nil => exact Nat.le_refl _
    | cons thread rest ih =>
        apply Nat.le_trans (threadSuspendCount_le_machSuspendThread target thread.thread port)
        exact ih _
  simp only [machSuspendAllThreads, ports] at listed ⊢
  generalize process.threads = threads at listed
  induction threads generalizing target with
  | nil => cases listed
  | cons thread rest ih =>
      rw [List.foldl_cons]
      rcases List.mem_cons.mp listed with rfl | later
      · have suspended := monotone rest (target.machSuspendThread thread.thread)
        rw [threadSuspendCount_machSuspendThread live, if_pos rfl] at suspended
        omega
      · refine ih ?_ later
        rw [(sameExecution_machSuspendThread target thread.thread).live]
        exact live

theorem sameExecution_machSuspendAllThreads (process : MDBProcess) (target : Target) :
    SameExecution target (process.machSuspendAllThreads target) := by
  simp only [machSuspendAllThreads]
  induction process.threads generalizing target with
  | nil => exact .refl target
  | cons thread rest ih =>
      apply (sameExecution_machSuspendThread target thread.thread).trans
      exact ih _

/-! ## Resuming one thread of all -/

/-- The task with every thread of the table suspended but one. -/
def runningAlone (process : MDBProcess) (target : Target) (port : ThreadPort) : Target :=
  ((process.machSuspendAllThreads target).machResumeThread port).2.machResumeTask

theorem sameExecution_runningAlone (process : MDBProcess) (target : Target) (port : ThreadPort) :
    SameExecution target (process.runningAlone target port) :=
  ((sameExecution_machSuspendAllThreads process target).trans
    (sameExecution_machResumeThread _ port)).trans (sameExecution_machResumeTask _)

theorem suspendCount_runningAlone (process : MDBProcess) (target : Target) (port : ThreadPort) :
    (process.runningAlone target port).suspendCount = 0 := by
  simp only [runningAlone, machResumeTask_eq]

/-- If the table lists all threads, then just the one that is resumed can run, if it is live. -/
theorem threadSuspendCount_runningAlone {process : MDBProcess} {target : Target}
    {port other : ThreadPort} (listed : ∀ port ∈ target.live, port ∈ process.ports)
    (live : other ∈ target.live) :
    (process.runningAlone target port).threadSuspendCount other = 0 ↔ other = port := by
  have suspension := sameExecution_machSuspendAllThreads process target
  have suspended := threadSuspendCount_machSuspendAllThreads (listed other live) live
  have resumed : (process.runningAlone target port).threadSuspendCount other =
      ((process.machSuspendAllThreads target).machResumeThread port).2.threadSuspendCount
        other := by
    simp only [runningAlone, machResumeTask_eq]
    rfl
  rw [resumed]
  by_cases same : other = port
  · subst same
    have liveNow : other ∈ (process.machSuspendAllThreads target).live := by
      rw [suspension.live]
      exact live
    simp [threadSuspendCount_machResumeThread_self liveNow]
  · rw [threadSuspendCount_machResumeThread_of_ne same]
    exact iff_of_false suspended same

/-! ## Resuming every thread and the task -/

variable {threads : List MDBThread} {target : Target}

theorem resumeThreads_cons_of_mem {thread : MDBThread} (live : thread.thread ∈ target.live) :
    resumeThreads (thread :: threads) target =
      resumeThreads threads (target.machResumeThread thread.thread).2 := by
  have resumed := machResumeThread_fst_iff.mpr live
  simp [resumeThreads, resumed]

theorem resumeThreads_cons_of_notMem {thread : MDBThread} (dead : thread.thread ∉ target.live) :
    resumeThreads (thread :: threads) target = (false, target) := by
  simp [resumeThreads, machResumeThread, threadInfo_of_notMem dead]

theorem sameExecution_resumeThreads (threads : List MDBThread) (target : Target) :
    SameExecution target (resumeThreads threads target).2 := by
  induction threads generalizing target with
  | nil => exact sameExecution_machResumeTask target
  | cons thread rest ih =>
      by_cases live : thread.thread ∈ target.live
      · rw [resumeThreads_cons_of_mem live]
        apply (sameExecution_machResumeThread target thread.thread).trans
        exact ih _
      · rw [resumeThreads_cons_of_notMem live]
        exact .refl target

/-- The loop gives up at the first thread that has exited. -/
theorem resumeThreads_fst_iff :
    (resumeThreads threads target).1 = true ↔ ∀ thread ∈ threads, thread.thread ∈ target.live := by
  induction threads generalizing target with
  | nil => simp [resumeThreads]
  | cons thread rest ih =>
      by_cases live : thread.thread ∈ target.live
      · rw [resumeThreads_cons_of_mem live, ih,
          (sameExecution_machResumeThread target thread.thread).live]
        simp [live]
      · rw [resumeThreads_cons_of_notMem live]
        simp [live]

/-- When no thread of the table has exited, the task and all these threads run again. -/
theorem resumeThreads_resumes (allLive : ∀ thread ∈ threads, thread.thread ∈ target.live) :
    (resumeThreads threads target).2.suspendCount = 0 ∧
      ∀ port, port ∈ threads.map (·.thread) ∨ target.threadSuspendCount port = 0 →
        (resumeThreads threads target).2.threadSuspendCount port = 0 := by
  induction threads generalizing target with
  | nil => simp [resumeThreads, threadSuspendCount]
  | cons thread rest ih =>
      have live := allLive thread List.mem_cons_self
      have restLive : ∀ other ∈ rest,
          other.thread ∈ (target.machResumeThread thread.thread).2.live := by
        intro other otherMem
        rw [(sameExecution_machResumeThread target thread.thread).live]
        apply allLive other
        exact List.mem_cons_of_mem _ otherMem
      rw [resumeThreads_cons_of_mem live]
      refine ⟨(ih restLive).1, ?_⟩
      rintro port (mem | zero)
      · apply (ih restLive).2
        rcases List.mem_cons.mp mem with rfl | mem
        · apply Or.inr
          exact threadSuspendCount_machResumeThread_self live
        · exact Or.inl mem
      · apply (ih restLive).2 port
        exact Or.inr (threadSuspendCount_machResumeThread_of_zero zero)

end MDBProcess

end RustDbg
