import RustDbg.Debugger.Course
import RustDbg.Library.Transition

/-!
# Letting the whole target run

`resume` lets the target run through the thread table of the process, `stepOver`
through the debugger's own list of threads, which nothing ever fills. A thread that
an earlier `step` has suspended therefore stays suspended while a call is stepped
over, whereas `resume` enters its free run with nothing suspended.
-/

namespace RustDbg

/-- An event in which no thread exits, nor the process. -/
def KeepsThreads (event : WaitEvent) : Prop :=
  ∀ target after outcome, event target = some (after, outcome) →
    (∀ port ∈ target.live, port ∈ after.live) ∧ ¬ outcome.IsDeath

namespace Session

/-- The session in which a command enters the wait of its free run, if it gets to one. -/
def freeRunEntry (ud : Udis86) (session : Session) : Command → Option Session
  | .step _ => none
  | .stepOver index => do
      let thread ← session.process.threads[index]?
      let (isCall, session) := session.isCallInstruction ud thread.state32.pc
      if isCall = false then none else return session.stepOverToWait ud thread.state32.pc
  | .resume => session.resumeToWait

/-- A command that enters a free run does so with nothing suspended. -/
def FreesTarget (ud : Udis86) (session : Session) (command : Command) : Prop :=
  ∀ entry, session.freeRunEntry ud command = some entry → entry.target.AllRunnable

/-- When a call is about to be stepped over, no thread is suspended already. -/
def UnsuspendedAtCall (ud : Udis86) (session : Session) (command : Command) : Prop :=
  ∀ index thread, command = .stepOver index → session.process.threads[index]? = some thread →
    (session.isCallInstruction ud thread.state32.pc).1 = true →
    ∀ port ∈ session.target.live, session.target.threadSuspendCount port = 0

/-- The table of the process lists the threads of a target of which none will exit. -/
structure TracksThreads (session : Session) : Prop where
  /-- The debugger's own list is empty. -/
  threads : session.threads = []
  ports : ∀ port, port ∈ session.process.ports ↔ port ∈ session.target.live
  events : ∀ event ∈ session.events, KeepsThreads event

namespace TracksThreads

variable {session next last : Session} {waitSignal : Signal} {state : MDBProcessRunState}
  {ud : Udis86}

theorem quiet (tracks : TracksThreads session) (quiet : Quiet session next) :
    TracksThreads next where
  threads := quiet.threads.trans tracks.threads
  ports := by rw [quiet.ports, quiet.live]; exact tracks.ports
  events := by rw [quiet.events]; exact tracks.events

theorem mem_ports_gatherThreads {process : MDBProcess} {target : Target}
    (listed : ∀ port ∈ process.ports, port ∈ target.live) (port : ThreadPort) :
    port ∈ (process.gatherThreads target).ports ↔ port ∈ target.live := by
  simp only [MDBProcess.mem_ports_gatherThreads, or_iff_right_of_imp (listed port)]

theorem ports_react {outcome : WaitOutcome} {result : Option MDBProcessRunState}
    (alive : ¬ outcome.IsDeath)
    (listed : ∀ port ∈ session.process.ports, port ∈ session.target.live)
    (reaction : react waitSignal outcome session = (result, next)) :
    next.target = session.target ∧ (∀ port ∈ next.process.ports, port ∈ next.target.live) ∧
      (result ≠ none → ∀ port, port ∈ next.process.ports ↔ port ∈ next.target.live) := by
  have gathered := mem_ports_gatherThreads listed
  have regathered := mem_ports_gatherThreads (fun port => (gathered port).mp)
  cases outcome with
  | exited code => exact absurd trivial alive
  | signaled signal => exact absurd trivial alive
  | failed errno =>
      simp only [react] at reaction
      split at reaction
      · rcases Prod.mk.inj reaction with ⟨rfl, rfl⟩
        exact ⟨rfl, listed, by simp⟩
      · rcases Prod.mk.inj reaction with ⟨rfl, rfl⟩
        exact ⟨rfl, fun port => (gathered port).mp, fun _ => gathered⟩
  | stopped signal continueError =>
      simp only [react] at reaction
      split at reaction
      · rcases Prod.mk.inj reaction with ⟨rfl, rfl⟩
        exact ⟨rfl, fun port => (gathered port).mp, fun _ => gathered⟩
      · split at reaction
        · rcases Prod.mk.inj reaction with ⟨rfl, rfl⟩
          exact ⟨rfl, fun port => (regathered port).mp, fun _ => regathered⟩
        · rcases Prod.mk.inj reaction with ⟨rfl, rfl⟩
          exact ⟨rfl, fun port => (gathered port).mp, by simp⟩

theorem wait (tracks : TracksThreads session)
    (returned : session.internalWait waitSignal = some (state, last)) : TracksThreads last := by
  have same := SameSettings.internalWait returned
  rcases internalWait_cases returned with ⟨-, -, rfl⟩ | ⟨-, next, looped, rfl⟩
  · exact ⟨tracks.threads, tracks.ports, tracks.events⟩
  · have ended : (∀ port, port ∈ next.process.ports ↔ port ∈ next.target.live) ∧
        ∀ event ∈ next.events, KeepsThreads event := by
      refine waitLoop_rule
        (fun events middle => (∀ port ∈ middle.process.ports, port ∈ middle.target.live) ∧
          ∀ event ∈ events, KeepsThreads event)
        (fun _ middle => (∀ port, port ∈ middle.process.ports ↔ port ∈ middle.target.live) ∧
          ∀ event ∈ middle.events, KeepsThreads event)
        ?_ ?_ ⟨fun port => (tracks.ports port).mp, tracks.events⟩ looped
      · rintro event rest middle target outcome next ⟨listed, events⟩ reported reaction
        rcases events event List.mem_cons_self middle.target target outcome reported with
          ⟨grows, alive⟩
        refine ⟨(ports_react alive ?_ reaction).2.1, fun event mem => events event (.tail _ mem)⟩
        exact fun port mem => grows port (listed port mem)
      · rintro event rest middle target outcome state next ⟨listed, events⟩ reported reaction
        rcases events event List.mem_cons_self middle.target target outcome reported with
          ⟨grows, alive⟩
        rw [events_of_react reaction]
        refine ⟨(ports_react alive ?_ reaction).2.2 (by simp),
          fun event mem => events event (.tail _ mem)⟩
        exact fun port mem => grows port (listed port mem)
    exact ⟨same.threads.trans tracks.threads, ended.1, ended.2⟩

theorem advances (tracks : TracksThreads session) (advances : Advances session next) :
    TracksThreads next :=
  advances.preserves TracksThreads (fun _ _ tracks quiet => tracks.quiet quiet)
    (fun _ _ _ tracks returned => tracks.wait returned) tracks

/-- `resume` lets everything run, whatever was suspended before. -/
theorem allRunnable_resumeToWait (tracks : TracksThreads session)
    (resumed : session.resumeToWait = some next) : next.target.AllRunnable := by
  simp only [resumeToWait, Option.map_eq_some_iff] at resumed
  rcases resumed with ⟨stepped, steps, rfl⟩
  have tracks := tracks.advances (advances_stepOffFrom steps)
  have running := MDBProcess.machResumeThreadsAndTask_resumes fun port mem =>
    (tracks.ports port).mp mem
  refine ⟨running.1, ?_⟩
  intro port live
  apply running.2 port
  simp only [(Quiet.machResumeThreadsAndTask stepped).live] at live
  apply (tracks.ports port).mpr
  exact live

end TracksThreads

variable {session : Session} {ud : Udis86}

theorem stepOverToWait_prepares (session : Session) (ud : Udis86) (address : Address) :
    ∃ prepared : Session, session.stepOverToWait ud address = prepared.resumeAllThreadsAndTask ∧
      prepared.threads = session.threads ∧ prepared.target.live = session.target.live ∧
      prepared.target.thread = session.target.thread := by
  refine ⟨_, rfl, ?_⟩
  cases session.findEnabled address <;> exact ⟨rfl, rfl, rfl⟩

/-- `stepOver` resumes the task and no thread. -/
theorem allRunnable_stepOverToWait_iff (noThreads : session.threads = []) (address : Address) :
    (session.stepOverToWait ud address).target.AllRunnable ↔
      ∀ port ∈ session.target.live, session.target.threadSuspendCount port = 0 := by
  rcases stepOverToWait_prepares session ud address with ⟨prepared, entry_eq, threads, live, thread⟩
  have taskOnly : prepared.resumeAllThreadsAndTask = prepared.machResumeTask := by
    simp [resumeAllThreadsAndTask, threads, noThreads]
  simp only [entry_eq, taskOnly]
  simp [machResumeTask, Target.AllRunnable, Target.threadSuspendCount, live, thread]

/-- A command frees the whole target iff it does not step over a call with a thread suspended. -/
theorem TracksThreads.freesTarget_iff (tracks : TracksThreads session) (command : Command) :
    session.FreesTarget ud command ↔ session.UnsuspendedAtCall ud command := by
  cases command with
  | step index => simp [FreesTarget, freeRunEntry, UnsuspendedAtCall]
  | resume =>
      refine iff_of_true ?_ (by simp [UnsuspendedAtCall])
      exact fun entry resumed => tracks.allRunnable_resumeToWait resumed
  | stepOver index =>
      have decoded (address : Address) :
          ((session.isCallInstruction ud address).2.stepOverToWait ud address).target.AllRunnable ↔
            ∀ port ∈ session.target.live, session.target.threadSuspendCount port = 0 := by
        have noThreads : (session.isCallInstruction ud address).2.threads = [] := tracks.threads
        exact allRunnable_stepOverToWait_iff noThreads address
      constructor
      · rintro frees _ thread ⟨⟩ present isCall
        have entered : session.freeRunEntry ud (.stepOver index) =
            some ((session.isCallInstruction ud thread.state32.pc).2.stepOverToWait ud
              thread.state32.pc) := by
          simp [freeRunEntry, present, isCall]
        apply (decoded thread.state32.pc).mp
        exact frees _ entered
      · intro unsuspended entry entered
        simp only [freeRunEntry, Option.bind_eq_bind, Option.bind_eq_some_iff,
          Option.ite_none_left_eq_some, Option.pure_def, Option.some.injEq] at entered
        rcases entered with ⟨thread, present, isCall, rfl⟩
        exact (decoded thread.state32.pc).mpr
          (unsuspended index thread rfl present (by simpa using isCall))

/--
In any run of commands the whole target is let run whenever it is meant to iff no
call is stepped over while a thread is suspended.
-/
theorem freesTarget_iff_unsuspendedAtCall {start : Session} (tracks : TracksThreads start)
    (ud : Udis86) (commands : List Command) :
    Transition.StepsSatisfy (perform ud) (FreesTarget ud) start commands ↔
      Transition.StepsSatisfy (perform ud) (UnsuspendedAtCall ud) start commands := by
  refine Transition.stepsSatisfy_congr TracksThreads ?_ ?_ tracks commands
  · exact fun session command tracks => tracks.freesTarget_iff command
  · exact fun session command next tracks _ performed =>
      tracks.advances (advances_perform performed)

def twoThreads : Target where
  memory _ := 0x90#8
  live := [1, 2]
  thread _ := ⟨.state32 default, ⟨.running, 0⟩⟩
  suspendCount := 0
  pidKnown := true

/-- A debugger whose waits each find that the target has stopped with `SIGTRAP`. -/
def attachedToTwoThreads : Session :=
  attached twoThreads
    [fun target => some (target, .stopped SIG_TRAP none),
      fun target => some (target, .stopped SIG_TRAP none)]

theorem tracksThreads_attachedToTwoThreads : TracksThreads attachedToTwoThreads where
  threads := rfl
  ports port := Iff.rfl
  events := by
    intro event mem
    simp only [attachedToTwoThreads, attached, List.mem_cons, List.not_mem_nil, or_false,
      or_self] at mem
    rintro target after outcome reported
    simp only [mem] at reported
    obtain ⟨rfl, rfl⟩ : target = after ∧ .stopped SIG_TRAP none = outcome := by simpa using reported
    exact ⟨fun _ live => live, fun dead => dead⟩

theorem freesTarget_iff_unsuspendedAtCall_twoThreads :
    Transition.StepsSatisfy (perform fun _ => ⟨5, .UD_Icall⟩) (FreesTarget fun _ => ⟨5, .UD_Icall⟩)
        attachedToTwoThreads [.step 0, .stepOver 0] ↔
      Transition.StepsSatisfy (perform fun _ => ⟨5, .UD_Icall⟩)
        (UnsuspendedAtCall fun _ => ⟨5, .UD_Icall⟩) attachedToTwoThreads [.step 0, .stepOver 0] :=
  freesTarget_iff_unsuspendedAtCall tracksThreads_attachedToTwoThreads _ _

/-- After a step of the first thread the second one stays suspended while a call is stepped over. -/
theorem not_freesTarget_after_step :
    TracksThreads attachedToTwoThreads ∧
      ∃ stepped entry,
        attachedToTwoThreads.perform (fun _ => ⟨5, .UD_Icall⟩) (.step 0) = some stepped ∧
        stepped.freeRunEntry (fun _ => ⟨5, .UD_Icall⟩) (.stepOver 0) = some entry ∧
        2 ∈ entry.target.live ∧ entry.target.threadSuspendCount 2 = 1 ∧
        ¬ entry.target.AllRunnable := by
  refine ⟨tracksThreads_attachedToTwoThreads, ?_⟩
  have entered : ((attachedToTwoThreads.perform (fun _ => ⟨5, .UD_Icall⟩) (.step 0)).bind
      (·.freeRunEntry (fun _ => ⟨5, .UD_Icall⟩) (.stepOver 0))).map
        (fun entry => (entry.target.live, entry.target.threadSuspendCount 2)) =
      some ([1, 2], 1) := by
    decide
  rcases Option.map_eq_some_iff.mp entered with ⟨entry, reached, counts⟩
  rcases Option.bind_eq_some_iff.mp reached with ⟨stepped, performed, entry_eq⟩
  rcases Prod.mk.inj counts with ⟨live, count⟩
  refine ⟨stepped, entry, performed, entry_eq, by simp [live], count, ?_⟩
  intro runnable
  have zero := runnable.2 2 (by simp [live])
  omega

end Session

end RustDbg
