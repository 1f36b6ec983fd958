import RustDbg.Debugger.Session

/-!
# Starting a process

`MDBDebugger::createProcess` forks, waits until the child stops where its program begins and
attaches to the task of the child. Its loop goes on waiting after a report of the child
while `errno` says that an earlier call was interrupted, and ends at an interruption; and
where it fails to attach it returns an error code, which is true as a `bool`.
-/

namespace RustDbg

/-- The `bool` that an `int` converts to. -/
def boolOfInt (value : Int) : Bool := value ≠ 0

def ERROR : Int := -1

abbrev MachPort := Nat

/-- What the status that `waitpid` stores tells of a child; it is at first 0, an exit. -/
inductive ChildStatus where
  | exited (code : Nat)
  | signaled (signal : Signal)
  | stopped (signal : Signal)
deriving DecidableEq, Repr

/-- What a call of `waitpid(childPid, &status, 0)` comes to. -/
inductive ChildReport where
  /-- It returns -1, sets `errno` and stores no status. -/
  | failed (errno : Nat)
  /-- It returns the pid of the child, stores its status and leaves `errno` alone. -/
  | reported (status : ChildStatus)
deriving DecidableEq, Repr

/-- What the calls that `createProcess` makes will answer. -/
structure Launch where
  acquireTaskportRight : Int
  /-- The pid `fork` returns: 0 in the child, negative when it fails. -/
  childPid : Int
  /-- `ptrace(PT_TRACE_ME)` in the child. -/
  ptrace : Int
  /-- Whether `execv` returns in the child. -/
  execvFails : Bool
  /-- The value of `errno` before the parent waits. -/
  errno : Nat
  reports : List ChildReport
  /-- Whether `task_for_pid` succeeds, and the port that it stores. -/
  taskForPid : Bool × MachPort
  /-- The task of the child when it has stopped. -/
  child : Target
  uninitialized : ThreadPort → MDBThread

/-- An `MDBProcess` object, with the task and the pid it has been made for. -/
structure ProcessObject where
  task : MachPort
  pid : Int
  process : MDBProcess

/-- The fields of `MDBDebugger` that `createProcess` sets. -/
structure Launcher where
  task : MachPort
  /-- `MDBDebugger::process`, the position of an object; none is `NULL`. -/
  process : Option Nat
  /-- The objects that have been made. -/
  objects : List ProcessObject

/-- The loop of `createProcess`: the status it ends with and the reports it has not read. -/
def waitForChild : Nat → ChildStatus → List ChildReport → Option (ChildStatus × List ChildReport)
  | _, _, [] => none
  | _, status, .failed _ :: rest => some (status, rest)
  | errno, _, .reported status :: rest =>
      if errno = EINTR then waitForChild errno status rest else some (status, rest)

namespace Launcher

/-- What `createProcess` does when the child has stopped. -/
def attach (debugger : Launcher) (launch : Launch) : Bool × Launcher :=
  let debugger := { debugger with task := launch.taskForPid.2 }
  if launch.taskForPid.1 = false then (boolOfInt (-1), debugger)
  else
    -- `initializeDylinkerHooks` returns at once for a process taken for a 64-bit one.
    let process := (MDBProcess.create launch.uninitialized).gatherThreads launch.child
    (true, { debugger with
      process := some debugger.objects.length
      objects := debugger.objects ++ [⟨debugger.task, launch.childPid, process⟩] })

/-- `MDBDebugger::createProcess`; it has no result where it does not return. -/
def createProcess (debugger : Launcher) (launch : Launch) : Option (Bool × Launcher) :=
  if launch.acquireTaskportRight ≠ 0 then some (false, debugger)
  else if launch.childPid = 0 then
    if launch.ptrace ≠ 0 then some (boolOfInt ERROR, debugger)
    else if launch.execvFails then some (false, debugger)
    else none
  else if launch.childPid < 0 then some (false, debugger)
  else
    match waitForChild launch.errno (.exited 0) launch.reports with
    | none => none
    | some (.stopped _, _) => some (debugger.attach launch)
    | some (.exited _, _) => some (false, debugger)
    | some (.signaled _, _) => some (false, debugger)

end Launcher

/-- The parent has been let debug and has forked a child to wait for. -/
structure Launch.Waits (launch : Launch) : Prop where
  right : launch.acquireTaskportRight = 0
  parent : 0 < launch.childPid

variable {launch : Launch} {debugger : Launcher} {errno : Nat} {status final : ChildStatus}
  {reports rest : List ChildReport} {signal : Signal}

theorem createProcess_of_waits (waits : launch.Waits) :
    debugger.createProcess launch =
      match waitForChild launch.errno (.exited 0) launch.reports with
      | none => none
      | some (.stopped _, _) => some (debugger.attach launch)
      | some (.exited _, _) => some (false, debugger)
      | some (.signaled _, _) => some (false, debugger) := by
  have parent := waits.parent
  have different : launch.childPid ≠ 0 := by omega
  have forked : ¬launch.childPid < 0 := by omega
  simp only [Launcher.createProcess, waits.right, different, forked, ne_eq, not_true_eq_false,
    if_false]

/-! ## Waiting for the child -/

/-- What the loop leaves to be read is less than what it was to read. -/
theorem length_lt_of_waitForChild
    (ended : waitForChild errno status reports = some (final, rest)) :
    rest.length < reports.length := by
  induction reports generalizing status with
  | nil => cases ended
  | cons report later ih =>
      cases report with
      | failed error =>
          simp only [waitForChild, Option.some.injEq, Prod.mk.injEq] at ended
          simp [← ended.2]
      | reported next =>
          simp only [waitForChild] at ended
          split at ended
          · have shorter := ih ended
            simp only [List.length_cons]
            omega
          · simp only [Option.some.injEq, Prod.mk.injEq] at ended
            simp [← ended.2]

/--
The loop survives interruptions before a report of the stop iff there are none and `errno`
was not left over from one.
-/
theorem waitForChild_survives_iff (interruptions : Nat) (errno : Nat) (signal : Signal)
    (later : List ChildReport) :
    waitForChild errno (.exited 0) (List.replicate interruptions (.failed EINTR) ++
        .reported (.stopped signal) :: later) = some (.stopped signal, later) ↔
      interruptions = 0 ∧ errno ≠ EINTR := by
  cases interruptions with
  | zero =>
      simp only [List.replicate_zero, List.nil_append, waitForChild, true_and]
      by_cases stale : errno = EINTR
      · simp only [stale, ne_eq, not_true_eq_false, iff_false]
        intro ended
        have shorter := length_lt_of_waitForChild ended
        omega
      · simp [stale]
  | succ count => simp [List.replicate_succ, waitForChild]

/-- The wait for the child ends with its stop, at the report of it, and its task is attached to. -/
structure SurvivesInterruptions (debugger : Launcher) (launch : Launch) (signal : Signal)
    (later : List ChildReport) : Prop where
  waited : waitForChild launch.errno (.exited 0) launch.reports = some (.stopped signal, later)
  attaches : debugger.createProcess launch = some (debugger.attach launch)

/--
With any number of interruptions before the report that the child has stopped, the process is
started iff there are none and `errno` is not left over from an earlier one.
-/
theorem survivesInterruptions_iff (waits : launch.Waits) (interruptions : Nat)
    (later : List ChildReport)
    (reports : launch.reports = List.replicate interruptions (.failed EINTR) ++
      .reported (.stopped signal) :: later) :
    SurvivesInterruptions debugger launch signal later ↔
      interruptions = 0 ∧ launch.errno ≠ EINTR := by
  rw [← waitForChild_survives_iff interruptions launch.errno signal later, ← reports]
  constructor
  · exact fun survives => survives.waited
  · intro waited
    refine ⟨waited, ?_⟩
    rw [createProcess_of_waits waits, waited]

/-! ## Launches that are interrupted -/

/-- A task of one thread that has stopped where its program begins. -/
def childTask : Target where
  memory _ := 0x90#8
  live := [1]
  thread _ := ⟨.state32 default, ⟨.stopped, 0⟩⟩
  suspendCount := 0
  pidKnown := true

def launchWith (errno : Nat) (reports : List ChildReport) (taskForPid : Bool × MachPort) :
    Launch where
  acquireTaskportRight := 0
  childPid := 100
  ptrace := 0
  execvFails := false
  errno
  reports
  taskForPid
  child := childTask
  uninitialized _ := default

def nothingLaunched : Launcher := ⟨0, none, []⟩

theorem waits_launchWith (errno : Nat) (reports : List ChildReport)
    (taskForPid : Bool × MachPort) : (launchWith errno reports taskForPid).Waits :=
  ⟨rfl, by simp [launchWith]⟩

theorem survivesInterruptions_iff_uninterrupted :
    SurvivesInterruptions nothingLaunched
        (launchWith 0 [.reported (.stopped SIG_TRAP)] (true, 7)) SIG_TRAP [] ↔
      0 = 0 ∧ 0 ≠ EINTR := by
  exact survivesInterruptions_iff (waits_launchWith _ _ _) 0 [] rfl

/--
One interruption makes `createProcess` give up before the report, and an `errno` left over
makes it wait on after the report.
-/
theorem not_survivesInterruptions :
    (nothingLaunched.createProcess (launchWith 0
        [.failed EINTR, .reported (.stopped SIG_TRAP)] (true, 7)) = some (false, nothingLaunched) ∧
      ¬SurvivesInterruptions nothingLaunched (launchWith 0
        [.failed EINTR, .reported (.stopped SIG_TRAP)] (true, 7)) SIG_TRAP []) ∧
    (nothingLaunched.createProcess
        (launchWith EINTR [.reported (.stopped SIG_TRAP)] (true, 7)) = none ∧
      ¬SurvivesInterruptions nothingLaunched
        (launchWith EINTR [.reported (.stopped SIG_TRAP)] (true, 7)) SIG_TRAP []) := by
  have givesUp : nothingLaunched.createProcess (launchWith 0
      [.failed EINTR, .reported (.stopped SIG_TRAP)] (true, 7)) =
        some (false, nothingLaunched) := rfl
  have waitsOn : nothingLaunched.createProcess
      (launchWith EINTR [.reported (.stopped SIG_TRAP)] (true, 7)) = none := rfl
  refine ⟨⟨givesUp, ?_⟩, waitsOn, ?_⟩
  · rintro ⟨waited, -⟩
    cases waited
  · rintro ⟨waited, -⟩
    cases waited

/-! ## The result -/

/-- While `errno` says that a call was interrupted, the loop ends at the first call that fails. -/
theorem waitForChild_stale_iff :
    waitForChild EINTR status reports = some (final, rest) ↔
      ∃ (statuses : List ChildStatus) (error : Nat),
        reports = statuses.map .reported ++ .failed error :: rest ∧
        final = statuses.getLast?.getD status := by
  induction reports generalizing status with
  | nil => simp [waitForChild]
  | cons report later ih =>
      cases report with
      | failed error =>
          simp only [waitForChild, Option.some.injEq, Prod.mk.injEq]
          constructor
          · rintro ⟨rfl, rfl⟩
            exact ⟨[], error, rfl, rfl⟩
          · rintro ⟨_ | ⟨first, statuses⟩, error', split, final_eq⟩
            · simp only [List.map_nil, List.nil_append, List.cons.injEq] at split
              exact ⟨final_eq.symm, split.2⟩
            · simp at split
      | reported next =>
          simp only [waitForChild, if_true, ih]
          constructor
          · rintro ⟨statuses, error, rfl, rfl⟩
            exact ⟨next :: statuses, error, rfl, by rw [List.getLast?_cons, Option.getD_some]⟩
          · rintro ⟨_ | ⟨first, statuses⟩, error, split, rfl⟩
            · simp at split
            · simp only [List.map_cons, List.cons_append, List.cons.injEq,
                ChildReport.reported.injEq] at split
              rcases split with ⟨rfl, rfl⟩
              exact ⟨statuses, error, rfl, by rw [List.getLast?_cons, Option.getD_some]⟩

/--
The reports make the loop end with a stop: the first of them is one, or `errno` is left over
from an interruption and the last before a call that fails is one.
-/
def EndsStopped (errno : Nat) (reports : List ChildReport) : Prop :=
  (errno ≠ EINTR ∧ ∃ signal rest, reports = .reported (.stopped signal) :: rest) ∨
  (errno = EINTR ∧ ∃ (statuses : List ChildStatus) (signal : Signal) (error : Nat)
    (rest : List ChildReport), reports =
    statuses.map .reported ++ .reported (.stopped signal) :: .failed error :: rest)

theorem endsStopped_iff :
    EndsStopped errno reports ↔
      ∃ signal rest, waitForChild errno (.exited 0) reports = some (.stopped signal, rest) := by
  by_cases stale : errno = EINTR
  · subst stale
    simp only [EndsStopped, ne_eq, not_true_eq_false, false_and, false_or, true_and,
      waitForChild_stale_iff]
    constructor
    · rintro ⟨statuses, signal, error, rest, rfl⟩
      exact ⟨signal, rest, statuses ++ [.stopped signal], error, by simp, by simp⟩
    · rintro ⟨signal, rest, statuses, error, rfl, final⟩
      rcases List.eq_nil_or_concat statuses with rfl | ⟨earlier, last, rfl⟩
      · cases final
      · simp only [List.concat_eq_append, List.getLast?_append, List.getLast?_singleton,
          Option.some_or, Option.getD_some] at final
        subst final
        exact ⟨earlier, signal, error, rest, by simp⟩
  · simp only [EndsStopped, stale, ne_eq, not_false_eq_true, true_and, false_and, or_false]
    constructor
    · rintro ⟨signal, rest, rfl⟩
      exact ⟨signal, rest, by simp [waitForChild, stale]⟩
    · rintro ⟨signal, rest, ended⟩
      rcases reports with _ | ⟨error | status, later⟩
      · cases ended
      · cases ended
      · simp only [waitForChild, if_neg stale, Option.some.injEq, Prod.mk.injEq] at ended
        exact ⟨signal, later, by rw [ended.1]⟩

/--
The loop ends: with the first call that returns, or, if `errno` is left over from an
interruption, with the first one that fails.
-/
def WaitEnds (errno : Nat) (reports : List ChildReport) : Prop :=
  if errno = EINTR then ∃ error, ChildReport.failed error ∈ reports else reports ≠ []

theorem waitEnds_iff :
    WaitEnds errno reports ↔ ∃ result, waitForChild errno status reports = some result := by
  induction reports generalizing status with
  | nil => simp [WaitEnds, waitForChild]
  | cons report later ih =>
      cases report with
      | failed error => simp [WaitEnds, waitForChild]
      | reported next =>
          simp only [WaitEnds, waitForChild] at ih ⊢
          split
          · rename_i stale
            rw [← ih, if_pos stale]
            simp
          · simp

/-- `process` points to a new object for the child that has stopped, with its threads gathered. -/
structure Attached (launch : Launch) (before after : Launcher) : Prop where
  succeeded : launch.taskForPid.1 = true
  process : after.process = some before.objects.length
  object : after.objects[before.objects.length]? =
    some ⟨launch.taskForPid.2, launch.childPid,
      (MDBProcess.create launch.uninitialized).gatherThreads launch.child⟩
  stopped : EndsStopped launch.errno launch.reports

/--
There is a result, which is success iff there is a new process, and otherwise the process
stays as it was.
-/
def ReportsTruthfully (debugger : Launcher) (launch : Launch) : Prop :=
  ∃ answer after, debugger.createProcess launch = some (answer, after) ∧
    (answer = true ↔ Attached launch debugger after) ∧
      (answer = false → after.process = debugger.process)

/-- An object is no new one if there is none but those from before. -/
theorem not_attached {after : Launcher} (objects : after.objects = debugger.objects) :
    ¬Attached launch debugger after := by
  intro attached
  have present := attached.object
  simp [objects] at present

theorem attach_of_success (debugger : Launcher) (succeeded : launch.taskForPid.1 = true)
    (stopped : EndsStopped launch.errno launch.reports) :
    (debugger.attach launch).1 = true ∧ Attached launch debugger (debugger.attach launch).2 := by
  simp only [Launcher.attach, succeeded, Bool.true_eq_false, if_false, true_and]
  exact ⟨succeeded, rfl, List.getElem?_concat_length, stopped⟩

theorem attach_of_failure (debugger : Launcher) (failed : launch.taskForPid.1 = false) :
    (debugger.attach launch).1 = true ∧ ¬Attached launch debugger (debugger.attach launch).2 := by
  simp only [Launcher.attach, failed, if_true]
  exact ⟨rfl, not_attached rfl⟩

/-- Without a child to wait for, the parent returns at once. -/
theorem createProcess_of_not_waits (parent : launch.childPid ≠ 0) (alone : ¬launch.Waits) :
    debugger.createProcess launch = some (false, debugger) := by
  by_cases right : launch.acquireTaskportRight = 0
  · have failed : launch.childPid < 0 := by
      by_contra positive
      exact alone ⟨right, by omega⟩
    simp only [Launcher.createProcess, right, parent, failed, ne_eq, not_true_eq_false, if_false,
      if_true]
  · simp only [Launcher.createProcess, right, ne_eq, not_false_eq_true, if_true]

/-- What `createProcess` comes to when the wait for the child ends. -/
theorem createProcess_of_waitEnds (debugger : Launcher) (waits : launch.Waits)
    (ends : WaitEnds launch.errno launch.reports) :
    (EndsStopped launch.errno launch.reports ∧
      debugger.createProcess launch = some (debugger.attach launch)) ∨
    (¬EndsStopped launch.errno launch.reports ∧
      debugger.createProcess launch = some (false, debugger)) := by
  rcases waitEnds_iff.mp ends with ⟨⟨status, rest⟩, ended⟩
  rw [createProcess_of_waits waits, endsStopped_iff, ended]
  cases status with
  | stopped signal => exact Or.inl ⟨⟨signal, rest, rfl⟩, rfl⟩
  | exited code => exact Or.inr ⟨by simp, rfl⟩
  | signaled signal => exact Or.inr ⟨by simp, rfl⟩

theorem createProcess_of_not_waitEnds (waits : launch.Waits)
    (endless : ¬WaitEnds launch.errno launch.reports) :
    debugger.createProcess launch = none := by
  rw [createProcess_of_waits waits]
  cases ended : waitForChild launch.errno (.exited 0) launch.reports with
  | none => rfl
  | some result => exact absurd (waitEnds_iff.mpr ⟨result, ended⟩) endless

/-- What `createProcess` can come to in the parent. -/
theorem createProcess_cases (parent : launch.childPid ≠ 0) {result : Bool × Launcher}
    (returned : debugger.createProcess launch = some result) :
    result = debugger.attach launch ∨ result = (false, debugger) := by
  by_cases waits : launch.Waits
  · by_cases ends : WaitEnds launch.errno launch.reports
    · rcases createProcess_of_waitEnds debugger waits ends with
        ⟨-, attached⟩ | ⟨-, unchanged⟩
      · exact Or.inl (Option.some.inj (returned.symm.trans attached))
      · exact Or.inr (Option.some.inj (returned.symm.trans unchanged))
    · rw [createProcess_of_not_waitEnds waits ends] at returned
      cases returned
  · rw [createProcess_of_not_waits parent waits, Option.some.injEq] at returned
    exact Or.inr returned.symm

theorem reportsTruthfully_of_unchanged
    (returned : debugger.createProcess launch = some (false, debugger)) :
    ReportsTruthfully debugger launch :=
  ⟨false, debugger, returned, by simp [not_attached], fun _ => rfl⟩

/-- An error code of `task_for_pid` is returned as true. -/
theorem reportsTruthfully_of_attach (stopped : EndsStopped launch.errno launch.reports)
    (returned : debugger.createProcess launch = some (debugger.attach launch)) :
    ReportsTruthfully debugger launch ↔ launch.taskForPid.1 = true := by
  constructor
  · rintro ⟨answer, after, result, truthful, -⟩
    rw [returned, Option.some.injEq] at result
    by_contra failed
    have failure := attach_of_failure debugger (Bool.eq_false_iff.mpr failed)
    simp only [result] at failure
    exact failure.2 (truthful.mp failure.1)
  · intro succeeded
    have success := attach_of_success debugger succeeded stopped
    refine ⟨(debugger.attach launch).1, (debugger.attach launch).2, returned, ?_, ?_⟩
    · exact iff_of_true success.1 success.2
    · intro failed
      rw [success.1] at failed
      cases failed

/--
In the parent there is a truthful result iff the wait for a child ends and, where it comes
to `task_for_pid`, that succeeds: when it fails, its error code is returned as true.
-/
theorem reportsTruthfully_iff (parent : launch.childPid ≠ 0) :
    ReportsTruthfully debugger launch ↔
      (launch.Waits → WaitEnds launch.errno launch.reports ∧
        (EndsStopped launch.errno launch.reports → launch.taskForPid.1 = true)) := by
  by_cases waits : launch.Waits
  · by_cases ends : WaitEnds launch.errno launch.reports
    · simp only [waits, ends, true_and, true_imp_iff]
      rcases createProcess_of_waitEnds debugger waits ends with
        ⟨stopped, returned⟩ | ⟨other, returned⟩
      · rw [reportsTruthfully_of_attach stopped returned]
        simp only [stopped, true_imp_iff]
      · simp only [other, false_imp_iff, iff_true]
        exact reportsTruthfully_of_unchanged returned
    · simp only [waits, ends, false_and, true_imp_iff, iff_false]
      rintro ⟨answer, after, returned, -⟩
      rw [createProcess_of_not_waitEnds waits ends] at returned
      cases returned
  · simp only [waits, false_imp_iff, iff_true]
    exact reportsTruthfully_of_unchanged (createProcess_of_not_waits parent waits)

theorem reportsTruthfully_iff_stoppedChild :
    ReportsTruthfully nothingLaunched (launchWith 0 [.reported (.stopped SIG_TRAP)] (true, 7)) ↔
      ((launchWith 0 [.reported (.stopped SIG_TRAP)] (true, 7)).Waits →
        WaitEnds 0 [.reported (.stopped SIG_TRAP)] ∧
          (EndsStopped 0 [.reported (.stopped SIG_TRAP)] → true = true)) := by
  apply reportsTruthfully_iff
  decide

/-- A failing `task_for_pid` is reported as a success, with `process` still `NULL`. -/
theorem not_reportsTruthfully_of_failing_taskForPid :
    nothingLaunched.createProcess (launchWith 0 [.reported (.stopped SIG_TRAP)] (false, 0)) =
        some (true, nothingLaunched) ∧
      nothingLaunched.process = none ∧
      ¬ReportsTruthfully nothingLaunched
        (launchWith 0 [.reported (.stopped SIG_TRAP)] (false, 0)) := by
  have returned : nothingLaunched.createProcess
      (launchWith 0 [.reported (.stopped SIG_TRAP)] (false, 0)) =
        some (true, nothingLaunched) := rfl
  refine ⟨returned, rfl, ?_⟩
  rintro ⟨answer, after, result, truthful, -⟩
  rw [returned, Option.some.injEq, Prod.mk.injEq] at result
  rcases result with ⟨rfl, rfl⟩
  have attached := truthful.mp rfl
  cases attached.succeeded

/-! ## The session that follows -/

/-- The process that a caller may then dereference is the one a session begins with. -/
theorem Attached.session {before after : Launcher} (attached : Attached launch before after)
    (zeroed : launch.uninitialized = fun _ => default) (events : List WaitEvent) :
    ∃ object, (after.process.bind fun pointer => after.objects[pointer]?) = some object ∧
      object.process = (Session.attached launch.child events).process := by
  refine ⟨⟨launch.taskForPid.2, launch.childPid,
    (Session.attached launch.child events).process⟩, ?_, rfl⟩
  rw [attached.process, Option.bind_some, attached.object, zeroed]
  rfl

end RustDbg
