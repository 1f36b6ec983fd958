import RustDbg.Debugger.FreeRun
import RustDbg.Debugger.Operations

/-!
# Suspending at most once

The debugger suspends only threads that nobody has suspended, so suspensions never nest: over a
whole run a single resumption is enough to let any thread go on.
-/

namespace RustDbg

namespace Target

/-- No live thread is suspended more than once. -/
def SuspendedOnce (target : Target) : Prop :=
  ∀ port ∈ target.live, target.threadSuspendCount port ≤ 1

namespace SuspendedOnce

variable {target after : Target}

/-- A thread has been suspended for the first time, resumed, or left as it was. -/
theorem of_le (once : target.SuspendedOnce) (live : after.live = target.live)
    (counts : ∀ port, after.threadSuspendCount port ≤ max (target.threadSuspendCount port) 1) :
    after.SuspendedOnce := by
  intro port mem
  rw [live] at mem
  have before := once port mem
  have bound := counts port
  omega

theorem threadSetState32 (once : target.SuspendedOnce) (port : ThreadPort)
    (registers : MDBThreadState32) : (target.threadSetState32 port registers).SuspendedOnce := by
  apply once.of_le (live_modifyThread ..)
  intro other
  have kept : (target.threadSetState32 port registers).threadSuspendCount other =
      target.threadSuspendCount other := by
    by_cases same : other = port
    · by_cases live : port ∈ target.live
      · rw [same, threadSuspendCount, Target.threadSetState32, thread_modifyThread_self _ live]
        split <;> rfl
      · rw [Target.threadSetState32, modifyThread_of_notMem _ live]
    · rw [threadSuspendCount, Target.threadSetState32, thread_modifyThread_of_ne _ same]
      rfl
  exact Nat.le_trans (Nat.le_of_eq kept) (Nat.le_max_left _ _)

theorem machSuspendThread (once : target.SuspendedOnce) (port : ThreadPort) :
    (target.machSuspendThread port).SuspendedOnce := by
  apply once.of_le (sameExecution_machSuspendThread target port).live
  intro other
  by_cases live : port ∈ target.live
  · rw [threadSuspendCount_machSuspendThread live]
    split
    · rename_i same
      exact same ▸ Nat.le_refl _
    · omega
  · rw [machSuspendThread_of_notMem live]
    omega

theorem machResumeThread (once : target.SuspendedOnce) (port : ThreadPort) :
    (target.machResumeThread port).2.SuspendedOnce := by
  apply once.of_le (sameExecution_machResumeThread target port).live
  intro other
  by_cases same : other = port
  · rw [same]
    by_cases live : port ∈ target.live
    · rw [threadSuspendCount_machResumeThread_self live]
      omega
    · have unchanged : (target.machResumeThread port).2 = target := by
        simp [Target.machResumeThread, threadInfo_of_notMem live]
      rw [unchanged]
      exact Nat.le_max_left _ _
  · rw [threadSuspendCount_machResumeThread_of_ne same]
    omega

theorem machResumeTask (once : target.SuspendedOnce) : target.machResumeTask.SuspendedOnce := by
  rw [machResumeTask_eq]
  exact once

theorem machSuspendAllThreads (once : target.SuspendedOnce) (process : MDBProcess) :
    (process.machSuspendAllThreads target).SuspendedOnce := by
  simp only [MDBProcess.machSuspendAllThreads]
  induction process.threads generalizing target with
  | nil => exact once
  | cons thread rest ih => exact ih (once.machSuspendThread thread.thread)

theorem resumeThreads (once : target.SuspendedOnce) (threads : List MDBThread) :
    (MDBProcess.resumeThreads threads target).2.SuspendedOnce := by
  induction threads generalizing target with
  | nil => exact once.machResumeTask
  | cons thread rest ih =>
      by_cases live : thread.thread ∈ target.live
      · rw [MDBProcess.resumeThreads_cons_of_mem live]
        exact ih (once.machResumeThread thread.thread)
      · rw [MDBProcess.resumeThreads_cons_of_notMem live]
        exact once

end SuspendedOnce

end Target

/-- Up to an event no thread is suspended by others than the debugger. -/
def WaitEvent.SuspendsOnce (event : WaitEvent) : Prop :=
  ∀ target after outcome, event target = some (after, outcome) →
    target.SuspendedOnce → after.SuspendedOnce

namespace Session

variable {session next last : Session} {ud : Udis86} {state : MDBProcessRunState}

/-- No live thread is suspended more than once in the target of the session. -/
abbrev Disciplined (session : Session) : Prop := session.target.SuspendedOnce

namespace Disciplined

theorem machCommitThread (once : Disciplined session) (process : MDBProcess) (index : Nat) :
    (process.machCommitThread session.target index).SuspendedOnce := by
  simp only [MDBProcess.machCommitThread]
  split
  · exact once.threadSetState32 _ _
  · exact once

theorem operation (once : Disciplined session) (operation : Operation session next) :
    Disciplined next := by
  cases operation with
  | access => exact once
  | enable ref flag => exact once
  | deleteTransientBreakpoints deleted =>
      simp only [Session.deleteTransientBreakpoints, Option.ite_none_left_eq_some,
        Option.some.injEq] at deleted
      rcases deleted with ⟨-, rfl⟩
      exact once
  | enableSingleStep index flag => exact once.machCommitThread _ index
  | stepBackThread index =>
      simp only [Session.stepBackThread]
      split
      · exact once
      · split
        · exact once
        · exact once.machCommitThread _ index
  | machSuspendAllThreads => exact once.machSuspendAllThreads session.process
  | machResumeThread index =>
      simp only [Session.machResumeThread]
      split
      · exact once.machResumeThread _
      · exact once
  | machResumeTask => exact once.machResumeTask
  | machResumeThreadsAndTask => exact once.resumeThreads session.process.threads

end Disciplined

/--
In every session that commands lead to, no live thread is suspended more than once, if that holds
at first and nobody but the debugger suspends threads: suspensions never nest.
-/
theorem suspendedOnce_of_run {start : Session} {commands : List Command}
    (once : start.target.SuspendedOnce) (events : ∀ event ∈ start.events, event.SuspendsOnce)
    (reached : Transition.run (perform ud) start commands = some last) :
    last.target.SuspendedOnce := by
  refine invariant_of_run_of_events WaitEvent.SuspendsOnce Disciplined ?_ ?_ ?_ ?_ events once
    reached
  · exact fun _ _ operation once => once.operation operation
  · intro event rest middle target outcome holds once reported
    rw [Disciplined, target_react]
    exact holds _ _ _ reported once
  · exact fun _ _ once => once
  · exact fun _ _ once => once

theorem suspendedOnce_of_run_twoThreads :
    ∃ last, Transition.run (perform fun _ => ⟨5, .UD_Icall⟩) attachedToTwoThreads
        [.step 0, .stepOver 0] = some last ∧ last.target.SuspendedOnce := by
  obtain ⟨last, reached⟩ : ∃ last, Transition.run (perform fun _ => ⟨5, .UD_Icall⟩)
      attachedToTwoThreads [.step 0, .stepOver 0] = some last :=
    Option.isSome_iff_exists.mp (by decide)
  refine ⟨last, reached, suspendedOnce_of_run ?_ ?_ reached⟩
  · exact fun port _ => Nat.zero_le 1
  · intro event mem target after outcome reported once
    simp only [attachedToTwoThreads, attached, List.mem_cons, List.not_mem_nil, or_false,
      or_self] at mem
    rw [mem] at reported
    rcases Prod.mk.inj (Option.some.inj reported) with ⟨rfl, -⟩
    exact once

end Session

end RustDbg
