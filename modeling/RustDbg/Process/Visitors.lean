import RustDbg.Process.Gather

/-!
# Visiting all threads

`MDBDebugger::forallThreads` calls a visitor on every thread of the target, without the thread
table of the process, until a visitor says to stop. The visitors suspend or resume all threads
but the current one, or set the trap flag of a thread from the registers it has.
-/

namespace RustDbg

/-- A `ThreadVisitor` with its argument: whether to go on, and the target afterwards. -/
abbrev ThreadVisitor := Target → ThreadPort → Bool × Target

namespace Target

/-- The loop of `MDBDebugger::forallThreads`. -/
def visitThreads (visitor : ThreadVisitor) : List ThreadPort → Target → Target
  | [], target => target
  | thread :: rest, target =>
      let (goesOn, target) := visitor target thread
      if goesOn then visitThreads visitor rest target else target

/-- `MDBDebugger::forallThreads`, with `task_threads` and `vm_deallocate` succeeding. -/
def forallThreads (visitor : ThreadVisitor) (target : Target) : Target :=
  visitThreads visitor target.live target

/-- `MDBDebugger::suspendOrResumeNoncurrentThread(suspend, thread, current)` -/
def suspendOrResumeNoncurrentThread (suspend : Bool) (current : ThreadPort) : ThreadVisitor :=
  fun target thread =>
    if current = thread then (true, target)
    else
      match target.threadInfo thread with
      | none => (true, target)
      | some info =>
          if suspend then
            (true, if info.suspendCount = 0 then target.threadSuspend thread else target)
          else (true, (threadResume · thread)^[info.suspendCount] target)

def suspendNoncurrentThreadDelegate (current : ThreadPort) : ThreadVisitor :=
  suspendOrResumeNoncurrentThread true current

def resumeNoncurrentThreadDelegate (current : ThreadPort) : ThreadVisitor :=
  suspendOrResumeNoncurrentThread false current

/-- `MDBDebugger::setSingleStep(thread, arg)`, which answers whether the registers were read. -/
def setSingleStep (flag : Bool) : ThreadVisitor := fun target thread =>
  match target.threadGetState32 thread with
  | none => (false, target)
  | some state => (true, target.threadSetState32 thread (state.withTrapFlag flag))

/-! ## Visitors that do not stop -/

/-- The visitor goes on and changes the suspend count of the thread it visits only. -/
structure Recounts (visitor : ThreadVisitor) (count : ThreadPort → Nat → Nat) : Prop where
  goesOn : ∀ (target : Target) port, (visitor target port).1 = true
  execution : ∀ (target : Target) port, target.SameExecution (visitor target port).2
  own : ∀ (target : Target) port, port ∈ target.live →
    (visitor target port).2.threadSuspendCount port = count port (target.threadSuspendCount port)
  others : ∀ (target : Target) port other, other ≠ port →
    (visitor target port).2.threadSuspendCount other = target.threadSuspendCount other

variable {visitor : ThreadVisitor} {count : ThreadPort → Nat → Nat} {target : Target}
  {port current : ThreadPort}

theorem Recounts.visitThreads (recounts : Recounts visitor count) {ports : List ThreadPort}
    (distinct : ports.Nodup) (live : ∀ port ∈ ports, port ∈ target.live) :
    target.SameExecution (target.visitThreads visitor ports) ∧
      ∀ port, (target.visitThreads visitor ports).threadSuspendCount port =
        if port ∈ ports then count port (target.threadSuspendCount port)
        else target.threadSuspendCount port := by
  induction ports generalizing target with
  | nil => exact ⟨.refl target, by simp [Target.visitThreads]⟩
  | cons first rest ih =>
      rw [List.nodup_cons] at distinct
      have visited := recounts.execution target first
      have liveNow : ∀ port ∈ rest, port ∈ (visitor target first).2.live := by
        intro port mem
        rw [visited.live]
        exact live port (List.mem_cons_of_mem _ mem)
      rcases ih distinct.2 liveNow with ⟨same, counts⟩
      have loop : target.visitThreads visitor (first :: rest) =
          (visitor target first).2.visitThreads visitor rest := by
        simp [Target.visitThreads, recounts.goesOn]
      rw [loop]
      refine ⟨visited.trans same, ?_⟩
      intro port
      rw [counts port]
      by_cases here : port = first
      · rw [here, if_neg distinct.1, if_pos List.mem_cons_self]
        apply recounts.own
        exact live first List.mem_cons_self
      · simp only [recounts.others target first port here, List.mem_cons, here, false_or]

theorem Recounts.forallThreads (recounts : Recounts visitor count) (distinct : target.live.Nodup) :
    target.SameExecution (target.forallThreads visitor) ∧
      ∀ port ∈ target.live, (target.forallThreads visitor).threadSuspendCount port =
        count port (target.threadSuspendCount port) := by
  rcases recounts.visitThreads distinct (fun _ live => live) with ⟨same, counts⟩
  refine ⟨same, ?_⟩
  intro port live
  apply (counts port).trans
  exact if_pos live

theorem recounts_suspendNoncurrent (current : ThreadPort) :
    Recounts (suspendNoncurrentThreadDelegate current)
      fun port count => if current = port then count else max count 1 := by
  constructor
  · intro target port
    simp only [suspendNoncurrentThreadDelegate, suspendOrResumeNoncurrentThread]
    split
    · rfl
    · split <;> rfl
  · intro target port
    simp only [suspendNoncurrentThreadDelegate, suspendOrResumeNoncurrentThread]
    split
    · exact .refl target
    · have suspension := sameExecution_machSuspendThread target port
      simp only [machSuspendThread] at suspension
      split
      · exact .refl target
      · rename_i info known
        simpa only [known, if_true] using suspension
  · intro target port live
    simp only [suspendNoncurrentThreadDelegate, suspendOrResumeNoncurrentThread]
    split
    · rfl
    · have suspension : (target.machSuspendThread port).threadSuspendCount port = _ :=
        threadSuspendCount_machSuspendThread live
      simp only [machSuspendThread, threadInfo_of_mem live] at suspension ⊢
      simpa using suspension
  · intro target port other different
    simp only [suspendNoncurrentThreadDelegate, suspendOrResumeNoncurrentThread]
    split
    · rfl
    · split
      · rfl
      · rename_i info known
        simp only [if_true]
        split
        · simp only [threadSuspendCount, threadSuspend, thread_modifyThread_of_ne _ different]
        · rfl

theorem recounts_resumeNoncurrent (current : ThreadPort) :
    Recounts (resumeNoncurrentThreadDelegate current)
      fun port count => if current = port then count else 0 := by
  constructor
  · intro target port
    simp only [resumeNoncurrentThreadDelegate, suspendOrResumeNoncurrentThread]
    split
    · rfl
    · split <;> rfl
  · intro target port
    simp only [resumeNoncurrentThreadDelegate, suspendOrResumeNoncurrentThread]
    split
    · exact .refl target
    · split
      · exact .refl target
      · exact sameExecution_iterate_threadResume _
  · intro target port live
    simp only [resumeNoncurrentThreadDelegate, suspendOrResumeNoncurrentThread]
    split
    · rfl
    · simp only [threadInfo_of_mem live, Bool.false_eq_true, if_false]
      rw [threadSuspendCount_iterate_threadResume _ live]
      exact Nat.sub_self _
  · intro target port other different
    simp only [resumeNoncurrentThreadDelegate, suspendOrResumeNoncurrentThread]
    split
    · rfl
    · split
      · rfl
      · simp only [Bool.false_eq_true, if_false, threadSuspendCount,
          thread_iterate_threadResume_of_ne _ different]

/-- A thread that is not live cannot be read, and one of the other width has no such flag. -/
theorem setSingleStep_eq_of_none (absent : target.threadGetState32 port = none)
    (registers : MDBThreadState32) : target.threadSetState32 port registers = target := by
  by_cases live : port ∈ target.live
  · simp only [threadGetState32, if_pos live] at absent
    simp only [threadSetState32, modifyThread, if_pos live]
    cases current : (target.thread port).registers with
    | state32 state => simp [current] at absent
    | state64 state => rw [Function.update_eq_self]
  · rw [threadSetState32, modifyThread_of_notMem _ live]

end Target

/-! ## Single steps without the thread table -/

namespace MDBProcess

open Target

variable {process : MDBProcess} {target : Target} {port current : ThreadPort}

/-- A thread of the table is suspended once, unless it was suspended already. -/
theorem threadSuspendCount_machSuspendAllThreads_eq (listed : port ∈ process.ports)
    (live : port ∈ target.live) :
    (process.machSuspendAllThreads target).threadSuspendCount port =
      max (target.threadSuspendCount port) 1 := by
  have suspended : ∀ (threads : List MDBThread) (target : Target), port ∈ target.live →
      (threads.foldl (fun target thread => target.machSuspendThread thread.thread)
        target).threadSuspendCount port =
        if port ∈ threads.map (·.thread) then max (target.threadSuspendCount port) 1
        else target.threadSuspendCount port := by
    intro threads target live
    induction threads generalizing target with
    | nil => rfl
    | cons thread rest ih =>
        have liveNow : port ∈ (target.machSuspendThread thread.thread).live := by
          rw [(sameExecution_machSuspendThread target thread.thread).live]
          exact live
        rw [List.foldl_cons, ih _ liveNow]
        by_cases same : port = thread.thread
        · rw [same] at live ⊢
          rw [threadSuspendCount_machSuspendThread live]
          simp
        · have kept : (target.machSuspendThread thread.thread).threadSuspendCount port =
              target.threadSuspendCount port := by
            by_cases other : thread.thread ∈ target.live
            · rw [threadSuspendCount_machSuspendThread other, if_neg same]
            · rw [machSuspendThread_of_notMem other]
          simp only [kept, List.map_cons, List.mem_cons, same, false_or]
  rw [machSuspendAllThreads, suspended process.threads target live]
  exact if_pos listed

/-- A thread other than the one that is to run alone is suspended once. -/
theorem threadSuspendCount_runningAlone_of_ne (listed : port ∈ process.ports)
    (live : port ∈ target.live) (different : port ≠ current) :
    (process.runningAlone target current).threadSuspendCount port =
      max (target.threadSuspendCount port) 1 := by
  have resumed : ((process.machSuspendAllThreads target).machResumeThread
      current).2.threadSuspendCount port = _ := threadSuspendCount_machResumeThread_of_ne different
  rw [threadSuspendCount_machSuspendAllThreads_eq listed live] at resumed
  rw [runningAlone, machResumeTask_eq]
  exact resumed

/--
Visiting the threads of the target suspends those that are suspended by way of a table that lists
them all, for every thread but the current one; visiting them again resumes them all, and the
execution of no thread has changed.
-/
theorem forallThreads_suspend_resume (process : MDBProcess) (current : ThreadPort)
    (distinct : target.live.Nodup) (listed : ∀ port ∈ target.live, port ∈ process.ports) :
    let suspended := target.forallThreads (suspendNoncurrentThreadDelegate current)
    let resumed := suspended.forallThreads (resumeNoncurrentThreadDelegate current)
    target.SameExecution suspended ∧ target.SameExecution resumed ∧
      ∀ port ∈ target.live,
        (port ≠ current → suspended.threadSuspendCount port =
            (process.runningAlone target current).threadSuspendCount port ∧
          resumed.threadSuspendCount port = 0) ∧
        (port = current → suspended.threadSuspendCount port = target.threadSuspendCount port ∧
          resumed.threadSuspendCount port = target.threadSuspendCount port) := by
  intro suspended resumed
  have suspension : target.SameExecution suspended ∧ _ :=
    (recounts_suspendNoncurrent current).forallThreads distinct
  have distinctNow : suspended.live.Nodup := by
    rw [suspension.1.live]
    exact distinct
  have resumption : suspended.SameExecution resumed ∧ _ :=
    (recounts_resumeNoncurrent current).forallThreads distinctNow
  refine ⟨suspension.1, suspension.1.trans resumption.1, ?_⟩
  intro port live
  have suspendedCount := suspension.2 port live
  have resumedCount := resumption.2 port (suspension.1.live ▸ live)
  constructor
  · intro different
    rw [if_neg (Ne.symm different)] at suspendedCount resumedCount
    refine ⟨?_, resumedCount⟩
    rw [threadSuspendCount_runningAlone_of_ne (listed port live) live different]
    exact suspendedCount
  · intro same
    rw [if_pos same.symm] at suspendedCount resumedCount
    exact ⟨suspendedCount, resumedCount.trans suspendedCount⟩

/-- Of two threads the second one is suspended while the first one is current. -/
theorem forallThreads_suspend_resume_stoppedTask :
    ((stoppedTask [1, 2]).forallThreads (suspendNoncurrentThreadDelegate 1)).threadSuspendCount 2 =
      (((create fun _ => default).gatherThreads (stoppedTask [1, 2])).runningAlone
        (stoppedTask [1, 2]) 1).threadSuspendCount 2 := by
  have agree := forallThreads_suspend_resume
    ((create fun _ => default).gatherThreads (stoppedTask [1, 2])) 1
    (show (stoppedTask [1, 2]).live.Nodup by decide) fun port live => by
      apply mem_ports_gatherThreads.mpr
      exact Or.inr live
  exact ((agree.2.2 2 (by decide)).1 (by decide)).1

end MDBProcess

end RustDbg
