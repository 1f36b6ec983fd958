import RustDbg.Debugger.Course
import RustDbg.Library.Transition

/-!
# The running flag

`MDBProcess::running` is cleared where `internalWait` sees the target exit, and
nowhere else. A target killed by a signal is reported as terminated as well, but
the flag stays. So the flag tells the truth at every return of `internalWait` iff the
first death that was reported, if any, was an exit.
-/

namespace RustDbg

/-- The flag is cleared iff a death has been reported, and at a return that says so itself. -/
def WaitReturn.Truthful (waitReturn : WaitReturn) : Prop :=
  (waitReturn.running = false ↔ ∃ outcome ∈ waitReturn.observed, outcome.IsDeath) ∧
    (waitReturn.state = .PRS_TERMINATED → waitReturn.running = false)

/-- Every death by a signal was reported after an exit. -/
def ExitsFirst (observed : List WaitOutcome) : Prop :=
  ∀ front signal rest, observed = front ++ .signaled signal :: rest →
    ∃ code, .exited code ∈ front

namespace Session

/-! ## What one iteration of the wait records -/

theorem concat_eq_append_cons {α : Type} {front rest all : List α} {first last : α}
    (eq : all ++ [last] = front ++ first :: rest) :
    (all = front ∧ last = first ∧ rest = []) ∨ ∃ earlier, all = front ++ first :: earlier := by
  rcases List.eq_nil_or_concat rest with rfl | ⟨earlier, final, rfl⟩
  · rcases List.append_inj' eq rfl with ⟨rfl, same⟩
    exact Or.inl ⟨rfl, by simpa using same, rfl⟩
  · have regrouped : all ++ [last] = (front ++ first :: earlier) ++ [final] := by simp [eq]
    exact Or.inr ⟨earlier, (List.append_inj' regrouped rfl).1⟩

variable {session next last : Session} {waitSignal : Signal} {outcome : WaitOutcome}

theorem history_react (waitSignal : Signal) (outcome : WaitOutcome) (session : Session) :
    (react waitSignal outcome session).2.observed = session.observed ∧
      (react waitSignal outcome session).2.waits = session.waits := by
  cases outcome with
  | failed errno =>
      simp only [react]
      split <;> exact ⟨rfl, rfl⟩
  | exited code => exact ⟨rfl, rfl⟩
  | signaled signal => exact ⟨rfl, rfl⟩
  | stopped signal continueError =>
      simp only [react]
      split
      · exact ⟨rfl, rfl⟩
      · split <;> exact ⟨rfl, rfl⟩

theorem running_react (waitSignal : Signal) (outcome : WaitOutcome) (session : Session) :
    (react waitSignal outcome session).2.process.running = false ↔
      session.process.running = false ∨ ∃ code, outcome = .exited code := by
  cases outcome with
  | failed errno =>
      simp only [react]
      split <;> simp [gatherThreads]
  | exited code => simp [react, MDBProcess.machSignalTerminated]
  | signaled signal => simp [react, gatherThreads]
  | stopped signal continueError =>
      simp only [react]
      split
      · simp [gatherThreads]
      · split <;> simp [gatherThreads]

/-- The wait returns `PRS_TERMINATED` for deaths and for nothing else. -/
theorem react_terminated_iff (waitSignal : Signal) (outcome : WaitOutcome) (session : Session) :
    (react waitSignal outcome session).1 = some .PRS_TERMINATED ↔ outcome.IsDeath := by
  cases outcome with
  | failed errno =>
      simp only [react]
      split <;> simp [WaitOutcome.IsDeath]
  | exited code => simp [react, WaitOutcome.IsDeath]
  | signaled signal => simp [react, WaitOutcome.IsDeath]
  | stopped signal continueError =>
      simp only [react]
      split
      · simp [WaitOutcome.IsDeath]
      · split <;> simp [WaitOutcome.IsDeath]

/-! ## The history of a session -/

/-- The history agrees with the flag and with itself. -/
structure History (session : Session) : Prop where
  running : session.process.running = false ↔ ∃ code, .exited code ∈ session.observed
  /-- What a return noted it noted of the observations up to then. -/
  noted : ∀ waitReturn ∈ session.waits, waitReturn.observed <+: session.observed ∧
    (waitReturn.running = false ↔ ∃ code, .exited code ∈ waitReturn.observed) ∧
    (waitReturn.state = .PRS_TERMINATED → ∃ outcome ∈ waitReturn.observed, outcome.IsDeath)
  /-- A death ends the wait that observes it. -/
  deaths : ∀ front outcome rest, session.observed = front ++ outcome :: rest → outcome.IsDeath →
    ∃ waitReturn ∈ session.waits, waitReturn.observed = front ++ [outcome]

namespace History

theorem initial (running : session.process.running = true) (observed : session.observed = [])
    (waits : session.waits = []) : History session where
  running := by simp [running, observed]
  noted := by simp [waits]
  deaths := by simp [observed]

theorem quiet (history : History session) (quiet : Quiet session next) : History next where
  running := by rw [quiet.running, quiet.observed]; exact history.running
  noted := by rw [quiet.waits, quiet.observed]; exact history.noted
  deaths := by rw [quiet.waits, quiet.observed]; exact history.deaths

theorem noteUnknown (history : History session) : History (session.noteReturn .PRS_UNKNOWN) where
  running := history.running
  noted := by
    intro waitReturn mem
    rcases List.mem_append.mp mem with old | new
    · exact history.noted waitReturn old
    · rcases List.mem_singleton.mp new with rfl
      exact ⟨List.prefix_rfl, history.running, by simp⟩
  deaths := by
    intro front outcome rest observed death
    rcases history.deaths front outcome rest observed death with ⟨waitReturn, mem, rest⟩
    exact ⟨waitReturn, List.mem_append_left _ mem, rest⟩

theorem iteration (history : History session) {rest : List WaitEvent} {target : Target}
    {result : Option MDBProcessRunState}
    (reaction : react waitSignal outcome (session.report rest target outcome) = (result, next)) :
    next.observed = session.observed ++ [outcome] ∧ next.waits = session.waits ∧
      (next.process.running = false ↔ ∃ code, .exited code ∈ next.observed) ∧
      (result = some .PRS_TERMINATED ↔ outcome.IsDeath) := by
  have records := history_react waitSignal outcome (session.report rest target outcome)
  have running := running_react waitSignal outcome (session.report rest target outcome)
  have terminated := react_terminated_iff waitSignal outcome (session.report rest target outcome)
  simp only [reaction] at records running terminated
  have observed : next.observed = session.observed ++ [outcome] := records.1
  refine ⟨observed, records.2, ?_, terminated⟩
  have before : (session.report rest target outcome).process.running = false ↔
      ∃ code, .exited code ∈ session.observed := history.running
  simp only [running, before, observed]
  simp only [List.mem_append, List.mem_singleton, exists_or, eq_comm]

theorem deaths_concat (history : History session) {waits : List WaitReturn}
    (kept : ∀ waitReturn ∈ session.waits, waitReturn ∈ waits)
    (noted : outcome.IsDeath →
      ∃ waitReturn ∈ waits, waitReturn.observed = session.observed ++ [outcome])
    {front rest : List WaitOutcome} {death : WaitOutcome}
    (observed : session.observed ++ [outcome] = front ++ death :: rest) (dead : death.IsDeath) :
    ∃ waitReturn ∈ waits, waitReturn.observed = front ++ [death] := by
  rcases concat_eq_append_cons observed with ⟨rfl, rfl, -⟩ | ⟨earlier, observed⟩
  · exact noted dead
  · rcases history.deaths front death earlier observed dead with ⟨waitReturn, mem, at_death⟩
    exact ⟨waitReturn, kept waitReturn mem, at_death⟩

theorem goesOn (history : History session) {rest : List WaitEvent} {target : Target}
    (reaction : react waitSignal outcome (session.report rest target outcome) = (none, next)) :
    History next := by
  rcases history.iteration reaction with ⟨observed, waits, running, terminated⟩
  refine ⟨running, ?_, ?_⟩
  · intro waitReturn mem
    simp only [waits] at mem
    rcases history.noted waitReturn mem with ⟨isPrefix, noted⟩
    rw [observed]
    exact ⟨isPrefix.trans (List.prefix_append _ _), noted⟩
  · intro front death later split dead
    rw [waits]
    refine history.deaths_concat (fun _ mem => mem) ?_ (observed.symm.trans split) dead
    intro died
    simp [died] at terminated

theorem returns (history : History session) {rest : List WaitEvent} {target : Target}
    {state : MDBProcessRunState}
    (reaction : react waitSignal outcome (session.report rest target outcome) =
      (some state, next)) :
    History (next.noteReturn state) := by
  rcases history.iteration reaction with ⟨observed, waits, running, terminated⟩
  refine ⟨running, ?_, ?_⟩
  · intro waitReturn mem
    rcases List.mem_append.mp mem with old | new
    · simp only [waits] at old
      rcases history.noted waitReturn old with ⟨isPrefix, noted⟩
      refine ⟨?_, noted⟩
      change waitReturn.observed <+: next.observed
      rw [observed]
      apply isPrefix.trans
      exact List.prefix_append _ _
    · rcases List.mem_singleton.mp new with rfl
      refine ⟨List.prefix_rfl, running, ?_⟩
      intro state_eq
      refine ⟨outcome, ?_, terminated.mp (congrArg some state_eq)⟩
      change outcome ∈ next.observed
      simp [observed]
  · intro front death later split dead
    have split' : session.observed ++ [outcome] = front ++ death :: later :=
      observed.symm.trans split
    refine history.deaths_concat ?_ ?_ split' dead
    · intro waitReturn mem
      apply List.mem_append_left _
      rwa [waits]
    · intro _
      exact ⟨_, List.mem_append_right _ (List.mem_singleton_self _), observed⟩

theorem wait (history : History session) {state : MDBProcessRunState}
    (returned : session.internalWait waitSignal = some (state, last)) : History last := by
  rcases internalWait_cases returned with ⟨-, -, rfl⟩ | ⟨-, next, looped, rfl⟩
  · exact history.noteUnknown
  · have noted : History (next.noteReturn state) := by
      refine waitLoop_rule (fun _ session => History session)
        (fun state next => History (next.noteReturn state)) ?_ ?_ history looped
      · intro event rest session target outcome next history _ reaction
        exact history.goesOn reaction
      · intro event rest session target outcome state next history _ reaction
        exact history.returns reaction
    exact noted

theorem run (history : History session) {ud : Udis86} {commands : List Command}
    (reached : Transition.run (perform ud) session commands = some last) : History last := by
  refine Transition.invariant_of_run History ?_ history reached
  intro before command after history performed
  refine (advances_perform performed).preserves History ?_ ?_ history
  · exact fun _ _ history quiet => history.quiet quiet
  · exact fun _ _ _ history returned => history.wait returned

/-- In an orderly history all returns tell the truth iff the first death is an exit. -/
theorem truthful_iff (history : History session) :
    (∀ waitReturn ∈ session.waits, waitReturn.Truthful) ↔ ExitsFirst session.observed := by
  constructor
  · intro truthful front signal rest observed
    rcases history.deaths front (.signaled signal) rest observed trivial with
      ⟨waitReturn, mem, at_death⟩
    have cleared : waitReturn.running = false :=
      (truthful waitReturn mem).1.mpr ⟨.signaled signal, by simp [at_death], trivial⟩
    rcases (history.noted waitReturn mem).2.1.mp cleared with ⟨code, exit_mem⟩
    exact ⟨code, by simpa [at_death] using exit_mem⟩
  · intro exitsFirst waitReturn mem
    rcases history.noted waitReturn mem with ⟨⟨later, observed⟩, running, terminated⟩
    have dies : waitReturn.running = false ↔ ∃ outcome ∈ waitReturn.observed, outcome.IsDeath := by
      rw [running]
      constructor
      · rintro ⟨code, exit_mem⟩
        exact ⟨.exited code, exit_mem, trivial⟩
      · rintro ⟨outcome, death_mem, dead⟩
        cases outcome with
        | exited code => exact ⟨code, death_mem⟩
        | signaled signal =>
            rcases List.append_of_mem death_mem with ⟨front, rest, split⟩
            rcases exitsFirst front signal (rest ++ later)
              (by rw [← observed, split, List.append_assoc, List.cons_append]) with ⟨code, exit_mem⟩
            exact ⟨code, by rw [split]; exact List.mem_append_left _ exit_mem⟩
        | failed errno => exact dead.elim
        | stopped signal continueError => exact dead.elim
    exact ⟨dies, fun state_eq => dies.mpr (terminated state_eq)⟩

end History

/--
In any run of commands the flag tells the truth at every return of `internalWait`
iff no death by a signal was reported before an exit.
-/
theorem truthful_iff_exitsFirst {start last : Session} (running : start.process.running = true)
    (unobserved : start.observed = []) (unwaited : start.waits = []) {ud : Udis86}
    {commands : List Command}
    (reached : Transition.run (perform ud) start commands = some last) :
    (∀ waitReturn ∈ last.waits, waitReturn.Truthful) ↔ ExitsFirst last.observed :=
  ((History.initial running unobserved unwaited).run reached).truthful_iff

def attachedUntil (outcome : WaitOutcome) : Session :=
  attached (MDBProcess.stoppedTask [1]) [fun target => some ({ target with live := [] }, outcome)]

theorem truthful_iff_exitsFirst_of_exit :
    ∃ last, Transition.run (perform fun _ => ⟨0, .other 0⟩) (attachedUntil (.exited 0))
        [.step 0] = some last ∧
      ((∀ waitReturn ∈ last.waits, waitReturn.Truthful) ↔ ExitsFirst last.observed) := by
  obtain ⟨last, reached⟩ : ∃ last, Transition.run (perform fun _ => ⟨0, .other 0⟩)
      (attachedUntil (.exited 0)) [.step 0] = some last :=
    Option.isSome_iff_exists.mp (by decide)
  exact ⟨last, reached, truthful_iff_exitsFirst rfl rfl rfl reached⟩

/-- After a death by `SIGKILL` the wait returns `PRS_TERMINATED` with the flag still set. -/
theorem not_truthful_after_signal :
    ∃ last, Transition.run (perform fun _ => ⟨0, .other 0⟩) (attachedUntil (.signaled 9))
        [.step 0] = some last ∧
      ∃ waitReturn ∈ last.waits, waitReturn.state = .PRS_TERMINATED ∧
        waitReturn.running = true ∧ ¬ waitReturn.Truthful := by
  have waits : (Transition.run (perform fun _ => ⟨0, .other 0⟩) (attachedUntil (.signaled 9))
      [.step 0]).map (·.waits) = some [⟨.PRS_TERMINATED, true, [.signaled 9]⟩] := by
    decide
  rcases Option.map_eq_some_iff.mp waits with ⟨last, reached, noted⟩
  refine ⟨last, reached, ⟨.PRS_TERMINATED, true, [.signaled 9]⟩, by simp [noted], rfl, rfl, ?_⟩
  intro truthful
  apply absurd (truthful.2 rfl)
  decide

end Session

end RustDbg
