import RustDbg.Debugger.Session

/-!
# Waiting for the target

`MDBDebugger::internalWait` reads one event after the other until one of them ends
the wait. Every call of `waitpid` uses up an event, so the loop ends with the list;
a session in which the list runs out is still waiting. Facts about a wait follow from
facts about one iteration by `waitLoop_rule`.
-/

namespace RustDbg.Session

/-- The session when `waitpid` has reported on the target as it is then. -/
def report (session : Session) (rest : List WaitEvent) (target : Target) (outcome : WaitOutcome) :
    Session :=
  { session with target, events := rest, observed := session.observed ++ [outcome] }

/-- What an iteration of the loop of `MDBDebugger::internalWait` returns, if it returns. -/
def react (waitSignal : Signal) (outcome : WaitOutcome) (session : Session) :
    Option MDBProcessRunState × Session :=
  match outcome with
  | .failed errno =>
      let session := { session with errno }
      if errno = EINTR then (none, session) else (some .PRS_UNKNOWN, session.gatherThreads)
  | .exited _ =>
      (some .PRS_TERMINATED, { session with process := session.process.machSignalTerminated })
  | .signaled _ => (some .PRS_TERMINATED, session.gatherThreads)
  | .stopped signal continueError =>
      let session := session.gatherThreads
      if signal = waitSignal then (some .PRS_STOPPED, session)
      else
        -- A successful `ptrace` leaves `errno` as it was.
        let session := { session with errno := continueError.getD session.errno }
        if session.errno ≠ 0 then (some .PRS_UNKNOWN, session.gatherThreads) else (none, session)

/-- The loop of `MDBDebugger::internalWait` over the events still to come. -/
def waitLoop (waitSignal : Signal) :
    List WaitEvent → Session → Option (MDBProcessRunState × Session)
  | [], _ => none
  | event :: rest, session =>
      match event session.target with
      | none => none
      | some (target, outcome) =>
          match react waitSignal outcome (session.report rest target outcome) with
          | (none, session) => waitLoop waitSignal rest session
          | (some state, session) => some (state, session)

def noteReturn (session : Session) (state : MDBProcessRunState) : Session :=
  { session with waits := session.waits ++ [⟨state, session.process.running, session.observed⟩] }

/-- `MDBDebugger::internalWait` -/
def internalWait (session : Session) (waitSignal : Signal) :
    Option (MDBProcessRunState × Session) :=
  if session.target.pidKnown then
    (waitLoop waitSignal session.events session).map fun result =>
      (result.1, result.2.noteReturn result.1)
  else some (.PRS_UNKNOWN, session.noteReturn .PRS_UNKNOWN)

variable {session last : Session} {waitSignal : Signal} {state : MDBProcessRunState}

/-- What one iteration keeps up, and makes true when it returns, holds of the whole loop. -/
theorem waitLoop_rule (Invariant : List WaitEvent → Session → Prop)
    (Result : MDBProcessRunState → Session → Prop)
    (goesOn : ∀ event rest session target outcome next, Invariant (event :: rest) session →
      event session.target = some (target, outcome) →
      react waitSignal outcome (session.report rest target outcome) = (none, next) →
      Invariant rest next)
    (returns : ∀ event rest session target outcome state next, Invariant (event :: rest) session →
      event session.target = some (target, outcome) →
      react waitSignal outcome (session.report rest target outcome) = (some state, next) →
      Result state next)
    {events : List WaitEvent} (start : Invariant events session)
    (returned : waitLoop waitSignal events session = some (state, last)) :
    Result state last := by
  induction events generalizing session with
  | nil => simp [waitLoop] at returned
  | cons event rest ih =>
      simp only [waitLoop] at returned
      split at returned
      · simp at returned
      · rename_i target outcome reported
        split at returned
        · rename_i next reaction
          exact ih (goesOn event rest session target outcome next start reported reaction) returned
        · rename_i next reaction
          simp only [Option.some.injEq, Prod.mk.injEq] at returned
          rcases returned with ⟨rfl, rfl⟩
          exact returns event rest session target outcome _ _ start reported reaction

/-- A return of `internalWait` is one of its loop, unless the process cannot be named. -/
theorem internalWait_cases (returned : session.internalWait waitSignal = some (state, last)) :
    (session.target.pidKnown = false ∧ state = .PRS_UNKNOWN ∧
      last = session.noteReturn .PRS_UNKNOWN) ∨
    (session.target.pidKnown = true ∧
      ∃ next, waitLoop waitSignal session.events session = some (state, next) ∧
        last = next.noteReturn state) := by
  simp only [internalWait] at returned
  split at returned
  · rename_i known
    simp only [Option.map_eq_some_iff, Prod.mk.injEq, Prod.exists] at returned
    rcases returned with ⟨_, next, looped, rfl, rfl⟩
    exact Or.inr ⟨known, next, looped, rfl⟩
  · rename_i unknown
    simp only [Option.some.injEq, Prod.mk.injEq] at returned
    rcases returned with ⟨rfl, rfl⟩
    exact Or.inl ⟨by simpa using unknown, rfl, rfl⟩

/-- What is kept up at every report, given what the events are like, holds after a wait. -/
theorem internalWait_invariant (Holds : WaitEvent → Prop) (Invariant : Session → Prop)
    (iteration : ∀ event rest middle target outcome, Holds event → Invariant middle →
      event middle.target = some (target, outcome) →
      Invariant (react waitSignal outcome (middle.report rest target outcome)).2)
    (noted : ∀ middle state, Invariant middle → Invariant (middle.noteReturn state))
    (events : ∀ event ∈ session.events, Holds event) (start : Invariant session)
    (returned : session.internalWait waitSignal = some (state, last)) : Invariant last := by
  rcases internalWait_cases returned with ⟨-, -, rfl⟩ | ⟨-, next, looped, rfl⟩
  · exact noted session .PRS_UNKNOWN start
  · apply noted next state
    refine waitLoop_rule
      (fun events middle => Invariant middle ∧ ∀ event ∈ events, Holds event)
      (fun _ middle => Invariant middle) ?_ ?_ ⟨start, events⟩ looped
    · rintro event rest middle target outcome next ⟨earlier, holds⟩ reported reaction
      have kept := iteration event rest middle target outcome (holds event List.mem_cons_self)
        earlier reported
      simp only [reaction] at kept
      exact ⟨kept, fun event mem => holds event (List.mem_cons_of_mem _ mem)⟩
    · rintro event rest middle target outcome state next ⟨earlier, holds⟩ reported reaction
      have kept := iteration event rest middle target outcome (holds event List.mem_cons_self)
        earlier reported
      simp only [reaction] at kept
      exact kept

/-! ## What a wait leaves alone -/

/-- The parts of a session that waiting does not touch are the same. -/
structure SameSettings (before after : Session) : Prop where
  breakpoints : after.breakpoints = before.breakpoints
  transientBreakpoints : after.transientBreakpoints = before.transientBreakpoints
  threads : after.threads = before.threads
  accesses : after.accesses = before.accesses
  reached : after.reached = before.reached
  process : before.process.Gathered after.process

namespace SameSettings

theorem refl (session : Session) : SameSettings session session :=
  ⟨rfl, rfl, rfl, rfl, rfl, .refl _⟩

theorem trans {first second third : Session} (left : SameSettings first second)
    (right : SameSettings second third) : SameSettings first third where
  breakpoints := right.breakpoints.trans left.breakpoints
  transientBreakpoints := right.transientBreakpoints.trans left.transientBreakpoints
  threads := right.threads.trans left.threads
  accesses := right.accesses.trans left.accesses
  reached := right.reached.trans left.reached
  process := left.process.trans right.process

theorem gatherThreads (session : Session) : SameSettings session session.gatherThreads where
  breakpoints := rfl
  transientBreakpoints := rfl
  threads := rfl
  accesses := rfl
  reached := rfl
  process := .gatherThreads session.process session.target

theorem report (session : Session) (rest : List WaitEvent) (target : Target)
    (outcome : WaitOutcome) : SameSettings session (session.report rest target outcome) :=
  ⟨rfl, rfl, rfl, rfl, rfl, .refl _⟩

theorem errno (session : Session) (errno : Nat) : SameSettings session { session with errno } :=
  ⟨rfl, rfl, rfl, rfl, rfl, .refl _⟩

theorem react (waitSignal : Signal) (outcome : WaitOutcome) (session : Session) :
    SameSettings session (react waitSignal outcome session).2 := by
  cases outcome with
  | failed errno =>
      simp only [Session.react]
      split
      · exact .errno session errno
      · apply (SameSettings.errno session errno).trans
        exact gatherThreads _
  | exited code => exact ⟨rfl, rfl, rfl, rfl, rfl, .machSignalTerminated session.process⟩
  | signaled signal => exact gatherThreads session
  | stopped signal continueError =>
      have gathered := gatherThreads session
      simp only [Session.react]
      split
      · exact gathered
      · have continued := gathered.trans (.errno _ (continueError.getD session.gatherThreads.errno))
        split
        · apply continued.trans
          exact gatherThreads _
        · exact continued

theorem iteration {middle next : Session} {rest : List WaitEvent} {target : Target}
    {outcome : WaitOutcome} {result : Option MDBProcessRunState}
    (same : SameSettings session middle)
    (reaction : Session.react waitSignal outcome (middle.report rest target outcome) =
      (result, next)) : SameSettings session next := by
  have reacted := SameSettings.react waitSignal outcome (middle.report rest target outcome)
  simp only [reaction] at reacted
  exact (same.trans (.report middle rest target outcome)).trans reacted

/-- A wait changes the target, the thread table and the history only. -/
theorem internalWait (returned : session.internalWait waitSignal = some (state, last)) :
    SameSettings session last := by
  refine internalWait_invariant (fun _ => True) (SameSettings session) ?_ ?_
    (fun _ _ => trivial) (refl session) returned
  · intro event rest middle target outcome _ same _
    exact same.iteration rfl
  · intro middle state same
    exact same.trans ⟨rfl, rfl, rfl, rfl, rfl, .refl _⟩

end SameSettings

/-! ## What ends a wait -/

/-- The wait ends well at a stop with the awaited signal, and gathers the threads then. -/
theorem react_stopped_iff {outcome : WaitOutcome} {next : Session} :
    react waitSignal outcome session = (some .PRS_STOPPED, next) ↔
      (∃ continueError, outcome = .stopped waitSignal continueError) ∧
        session.gatherThreads = next := by
  cases outcome with
  | failed errno =>
      simp only [react]
      split <;> simp
  | exited code => simp [react]
  | signaled signal => simp [react]
  | stopped signal continueError =>
      simp only [react]
      split
      · rename_i awaited
        simp [awaited]
      · rename_i other
        split <;> simp [other]

/-! ## What a wait uses up -/

theorem events_react (waitSignal : Signal) (outcome : WaitOutcome) (session : Session) :
    (react waitSignal outcome session).2.events = session.events := by
  cases outcome with
  | failed errno =>
      simp only [react]
      split <;> rfl
  | exited code => rfl
  | signaled signal => rfl
  | stopped signal continueError =>
      simp only [react]
      split
      · rfl
      · split <;> rfl

theorem target_react (waitSignal : Signal) (outcome : WaitOutcome) (session : Session) :
    (react waitSignal outcome session).2.target = session.target := by
  cases outcome with
  | failed errno =>
      simp only [react]
      split <;> rfl
  | exited code => rfl
  | signaled signal => rfl
  | stopped signal continueError =>
      simp only [react]
      split
      · rfl
      · split <;> rfl

theorem events_of_react {rest : List WaitEvent} {target : Target} {outcome : WaitOutcome}
    {result : Option MDBProcessRunState}
    (reaction : react waitSignal outcome (session.report rest target outcome) = (result, last)) :
    last.events = rest := by
  have kept := events_react waitSignal outcome (session.report rest target outcome)
  rwa [reaction] at kept

theorem events_internalWait (known : session.target.pidKnown = true)
    (returned : session.internalWait waitSignal = some (state, last)) :
    ∃ used, used ≠ [] ∧ session.events = used ++ last.events := by
  rcases internalWait_cases returned with ⟨unknown, -, -⟩ | ⟨-, next, looped, rfl⟩
  · simp [known] at unknown
  · have shrunk : ∃ used, used ≠ [] ∧ session.events = used ++ next.events := by
      refine waitLoop_rule
        (fun events middle => middle.events = events ∧ ∃ used, session.events = used ++ events)
        (fun _ middle => ∃ used, used ≠ [] ∧ session.events = used ++ middle.events)
        ?_ ?_ ⟨rfl, [], rfl⟩ looped
      · rintro event rest middle target outcome next ⟨-, used, split⟩ _ reaction
        exact ⟨events_of_react reaction, used ++ [event], by simp [split]⟩
      · rintro event rest middle target outcome state next ⟨-, used, split⟩ _ reaction
        exact ⟨used ++ [event], by simp, by simp [split, events_of_react reaction]⟩
    exact shrunk

end RustDbg.Session
