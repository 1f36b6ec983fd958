import RustDbg.Debugger.Wait

/-!
# How a wait classifies what it sees

The loop of `MDBDebugger::internalWait` on what the system calls answer it, with the
signals it passes on. `ptrace` leaves `errno` alone when it succeeds and the loop does
not look at what `ptrace` returns, so an `errno` that is left over makes a stop that has been
continued look like one that has not.
-/

namespace RustDbg

variable {waitSignal : Signal} {errno : Nat} {outcome : WaitOutcome}
  {outcomes rest : List WaitOutcome}

/-- How a wait has ended and the signals passed to the target by `ptrace(PT_CONTINUE)`. -/
@[ext]
structure WaitResult where
  /-- The returned state and what is left to be waited for; none while the wait goes on. -/
  returned : Option (MDBProcessRunState × List WaitOutcome)
  passed : List Signal
deriving DecidableEq, Repr

/-- The loop of `MDBDebugger::internalWait` for a value of `errno` and the coming outcomes. -/
def waitOutcomes (waitSignal : Signal) : Nat → List WaitOutcome → WaitResult
  | _, [] => ⟨none, []⟩
  | errno, outcome :: rest =>
      match outcome with
      | .failed error =>
          if error = EINTR then waitOutcomes waitSignal error rest
          else ⟨some (.PRS_UNKNOWN, rest), []⟩
      | .exited _ | .signaled _ => ⟨some (.PRS_TERMINATED, rest), []⟩
      | .stopped signal continueError =>
          if signal = waitSignal then ⟨some (.PRS_STOPPED, rest), []⟩
          else
            -- A successful `ptrace` leaves `errno` as it was.
            let errno := continueError.getD errno
            let result :=
              if errno ≠ 0 then ⟨some (.PRS_UNKNOWN, rest), []⟩
              else waitOutcomes waitSignal errno rest
            { result with passed := signal :: result.passed }

/-! ## The classification -/

namespace WaitOutcome

/-- The state that an outcome decides the wait for; none if the wait is to go on. -/
def verdict (waitSignal : Signal) : WaitOutcome → Option MDBProcessRunState
  | .failed error => if error = EINTR then none else some .PRS_UNKNOWN
  | .exited _ | .signaled _ => some .PRS_TERMINATED
  | .stopped signal continueError =>
      if signal = waitSignal then some .PRS_STOPPED
      else if continueError.isSome then some .PRS_UNKNOWN
      else none

/-- The signal of a stop that is not the awaited one. -/
def otherSignal (waitSignal : Signal) : WaitOutcome → Option Signal
  | .stopped signal _ => if signal = waitSignal then none else some signal
  | .failed _ | .exited _ | .signaled _ => none

/-- A failed `ptrace` sets `errno` to the number of an error. -/
def WellFormed (outcome : WaitOutcome) : Prop := ∀ signal, outcome ≠ .stopped signal (some 0)

end WaitOutcome

/-- The number of outcomes before the first one that decides the wait. -/
def undecided (waitSignal : Signal) (outcomes : List WaitOutcome) : Nat :=
  (outcomes.takeWhile fun outcome => (outcome.verdict waitSignal).isNone).length

/--
The first outcome that decides the wait is the one it returns on, and every other signal that
comes until then is passed on.
-/
def classified (waitSignal : Signal) (outcomes : List WaitOutcome) : WaitResult where
  returned := do
    let outcome ← outcomes[undecided waitSignal outcomes]?
    let state ← outcome.verdict waitSignal
    return (state, outcomes.drop (undecided waitSignal outcomes + 1))
  passed :=
    (outcomes.take (undecided waitSignal outcomes + 1)).filterMap
      (WaitOutcome.otherSignal waitSignal)

/-- No stop is continued while `errno` is left over from before the wait or an interruption. -/
def NeverStale (waitSignal : Signal) (errno : Nat) (outcomes : List WaitOutcome) : Prop :=
  ∀ before signal rest, outcomes = before ++ .stopped signal none :: rest →
    (∀ outcome ∈ before, outcome.verdict waitSignal = none) → signal ≠ waitSignal →
      errno = 0 ∧ .failed EINTR ∉ before

theorem classified_of_decisive {state : MDBProcessRunState}
    (decisive : outcome.verdict waitSignal = some state) :
    classified waitSignal (outcome :: rest) =
      ⟨some (state, rest), (outcome.otherSignal waitSignal).toList⟩ := by
  have first : undecided waitSignal (outcome :: rest) = 0 := by
    simp [undecided, decisive]
  simp only [classified, first]
  cases foreign : outcome.otherSignal waitSignal <;> simp [decisive, foreign]

theorem classified_of_undecided (undecisive : outcome.verdict waitSignal = none) :
    classified waitSignal (outcome :: rest) =
      { classified waitSignal rest with
        passed := (outcome.otherSignal waitSignal).toList ++
          (classified waitSignal rest).passed } := by
  have later : undecided waitSignal (outcome :: rest) = undecided waitSignal rest + 1 := by
    simp [undecided, undecisive]
  simp only [classified, later]
  cases foreign : outcome.otherSignal waitSignal <;> simp [foreign]

/-- What is left when a wait has returned is less than what it was to wait for. -/
theorem length_lt_of_classified {state : MDBProcessRunState} {left : List WaitOutcome}
    (returned : (classified waitSignal outcomes).returned = some (state, left)) :
    left.length < outcomes.length := by
  simp only [classified, Option.bind_eq_bind, Option.bind_eq_some_iff, Option.pure_def,
    Option.some.injEq, Prod.mk.injEq] at returned
  rcases returned with ⟨outcome, present, _, _, _, rfl⟩
  have bound := (List.getElem?_eq_some_iff.mp present).1
  simp only [List.length_drop]
  omega

/-! ## When the loop keeps to it -/

theorem neverStale_cons_of_decisive {state : MDBProcessRunState}
    (decisive : outcome.verdict waitSignal = some state) :
    NeverStale waitSignal errno (outcome :: rest) := by
  intro before signal later split undecisive other
  cases before with
  | nil =>
      rcases List.cons.inj split with ⟨rfl, -⟩
      simp [WaitOutcome.verdict, other] at decisive
  | cons first before =>
      rcases List.cons.inj split with ⟨rfl, -⟩
      simp [undecisive outcome List.mem_cons_self] at decisive

theorem neverStale_cons_of_interrupted :
    NeverStale waitSignal errno (.failed EINTR :: rest) ↔ NeverStale waitSignal EINTR rest := by
  constructor
  · intro never before signal later split undecisive other
    have fresh := never (.failed EINTR :: before) signal later (by rw [split]; rfl) (by
      intro outcome mem
      rcases List.mem_cons.mp mem with rfl | mem
      · simp [WaitOutcome.verdict]
      · exact undecisive outcome mem) other
    exact absurd List.mem_cons_self fresh.2
  · intro never before signal later split undecisive other
    cases before with
    | nil => simp at split
    | cons first before =>
        rcases List.cons.inj split with ⟨rfl, splitRest⟩
        have stale := never before signal later splitRest
          (fun outcome mem => undecisive outcome (List.mem_cons_of_mem _ mem)) other
        simp [EINTR] at stale

theorem neverStale_cons_of_continued {signal : Signal} (other : signal ≠ waitSignal) :
    NeverStale waitSignal errno (.stopped signal none :: rest) ↔
      errno = 0 ∧ NeverStale waitSignal errno rest := by
  constructor
  · intro never
    refine ⟨(never [] signal rest rfl (by simp) other).1, ?_⟩
    intro before later after split undecisive different
    have fresh := never (.stopped signal none :: before) later after (by rw [split]; rfl) (by
      intro outcome mem
      rcases List.mem_cons.mp mem with rfl | mem
      · simp [WaitOutcome.verdict, other]
      · exact undecisive outcome mem) different
    exact ⟨fresh.1, fun mem => fresh.2 (List.mem_cons_of_mem _ mem)⟩
  · rintro ⟨zero, never⟩ before later after split undecisive different
    cases before with
    | nil => exact ⟨zero, List.not_mem_nil⟩
    | cons first before =>
        rcases List.cons.inj split with ⟨rfl, splitRest⟩
        have fresh := never before later after splitRest
          (fun outcome mem => undecisive outcome (List.mem_cons_of_mem _ mem)) different
        refine ⟨zero, ?_⟩
        simpa using fresh.2

/-- The wait goes on after an interruption and after a stop that it continues. -/
theorem WaitOutcome.verdict_eq_none_iff :
    outcome.verdict waitSignal = none ↔
      outcome = .failed EINTR ∨ ∃ signal ≠ waitSignal, outcome = .stopped signal none := by
  cases outcome with
  | failed error => simp [verdict]
  | exited code => simp [verdict]
  | signaled signal => simp [verdict]
  | stopped signal continueError =>
      by_cases awaited : signal = waitSignal
      · simp [verdict, awaited]
      · cases continueError with
        | none => simp [verdict, awaited]
        | some error => simp [verdict, awaited]

/-- The loop ends at an outcome that decides the wait, whatever `errno` is. -/
theorem waitOutcomes_of_decisive {state : MDBProcessRunState} (wellFormed : outcome.WellFormed)
    (decisive : outcome.verdict waitSignal = some state) :
    waitOutcomes waitSignal errno (outcome :: rest) =
      ⟨some (state, rest), (outcome.otherSignal waitSignal).toList⟩ := by
  cases outcome with
  | failed error =>
      by_cases interrupted : error = EINTR
      · simp [WaitOutcome.verdict, interrupted] at decisive
      · simp only [WaitOutcome.verdict, if_neg interrupted, Option.some.injEq] at decisive
        simp [waitOutcomes, WaitOutcome.otherSignal, interrupted, decisive]
  | exited code =>
      rcases decisive
      rfl
  | signaled signal =>
      rcases decisive
      rfl
  | stopped signal continueError =>
      by_cases awaited : signal = waitSignal
      · simp only [WaitOutcome.verdict, if_pos awaited, Option.some.injEq] at decisive
        simp [waitOutcomes, WaitOutcome.otherSignal, awaited, decisive]
      · cases continueError with
        | none => simp [WaitOutcome.verdict, awaited] at decisive
        | some error =>
            have nonzero : error ≠ 0 := by
              rintro rfl
              exact wellFormed signal rfl
            simp only [WaitOutcome.verdict, if_neg awaited, Option.isSome_some, if_true,
              Option.some.injEq] at decisive
            simp [waitOutcomes, WaitOutcome.otherSignal, awaited, nonzero, decisive]

/-- The loop classifies what it sees iff no stop is continued with an `errno` left over. -/
theorem waitOutcomes_eq_classified_iff (wellFormed : ∀ outcome ∈ outcomes, outcome.WellFormed) :
    waitOutcomes waitSignal errno outcomes = classified waitSignal outcomes ↔
      NeverStale waitSignal errno outcomes := by
  induction outcomes generalizing errno with
  | nil => simp [waitOutcomes, classified, undecided, NeverStale]
  | cons outcome rest ih =>
      have wellFormedRest : ∀ outcome ∈ rest, outcome.WellFormed :=
        fun outcome mem => wellFormed outcome (List.mem_cons_of_mem _ mem)
      cases decided : outcome.verdict waitSignal with
      | some state =>
          apply iff_of_true ?_ (neverStale_cons_of_decisive decided)
          rw [waitOutcomes_of_decisive (wellFormed outcome List.mem_cons_self) decided,
            classified_of_decisive decided]
      | none =>
          rcases WaitOutcome.verdict_eq_none_iff.mp decided with rfl | ⟨signal, other, rfl⟩
          · simp only [neverStale_cons_of_interrupted, ← ih wellFormedRest, waitOutcomes, if_true,
              classified_of_undecided decided]
            rfl
          · simp only [neverStale_cons_of_continued other, waitOutcomes, if_neg other,
              Option.getD_none, classified_of_undecided decided, WaitOutcome.otherSignal,
              Option.toList_some, List.singleton_append]
            by_cases zero : errno = 0
            · simp only [zero, ne_eq, not_true_eq_false, if_false, true_and,
                ← ih wellFormedRest, WaitResult.mk.injEq, List.cons.injEq]
              constructor
              · rintro ⟨returned, passed⟩
                exact WaitResult.ext returned passed
              · intro same
                rw [same]
                exact ⟨rfl, rfl⟩
            · simp only [zero, ne_eq, not_false_eq_true, if_true, false_and, iff_false]
              intro same
              have returned := congrArg WaitResult.returned same
              have shorter := length_lt_of_classified returned.symm
              omega

/-! ## The loop in a session -/

/-- What the calls of `waitpid` will answer for a target, up to one that does not return. -/
def outcomesOf : List WaitEvent → Target → List WaitOutcome
  | [], _ => []
  | event :: rest, target =>
      match event target with
      | none => []
      | some (target, outcome) => outcome :: outcomesOf rest target

namespace Session

variable {session last : Session} {state : MDBProcessRunState}

/-- What the coming calls of `waitpid` will answer. -/
def upcoming (session : Session) : List WaitOutcome := outcomesOf session.events session.target

/-- The loop in a session returns what the loop on the outcomes of its events returns. -/
theorem waitLoop_upcoming (waitSignal : Signal) (session : Session) (events : List WaitEvent)
    (coming : session.events = events) :
    (waitLoop waitSignal events session).map (fun result => (result.1, result.2.upcoming)) =
      (waitOutcomes waitSignal session.errno (outcomesOf events session.target)).returned := by
  induction events generalizing session with
  | nil => rfl
  | cons event rest ih =>
      simp only [waitLoop, outcomesOf]
      cases reported : event session.target with
      | none => rfl
      | some result =>
          rcases result with ⟨target, outcome⟩
          cases outcome with
          | failed error =>
              by_cases interrupted : error = EINTR
              · simp only [react, waitOutcomes, if_pos interrupted]
                exact ih { session.report rest target (.failed error) with errno := error } rfl
              · simp only [react, waitOutcomes, if_neg interrupted]
                rfl
          | exited code => rfl
          | signaled signal => rfl
          | stopped signal continueError =>
              by_cases awaited : signal = waitSignal
              · simp only [react, waitOutcomes, if_pos awaited]
                rfl
              · have errno_eq : (session.report rest target
                    (.stopped signal continueError)).gatherThreads.errno = session.errno := rfl
                by_cases zero : continueError.getD session.errno = 0
                · simp only [react, waitOutcomes, if_neg awaited, errno_eq, zero, ne_eq,
                    not_true_eq_false, if_false]
                  exact ih
                    { (session.report rest target (.stopped signal continueError)).gatherThreads
                      with errno := 0 } rfl
                · simp only [react, waitOutcomes, if_neg awaited, errno_eq, zero, ne_eq,
                    not_false_eq_true, if_true]
                  rfl

theorem internalWait_upcoming (known : session.target.pidKnown = true) (waitSignal : Signal) :
    (session.internalWait waitSignal).map (fun result => (result.1, result.2.upcoming)) =
      (waitOutcomes waitSignal session.errno session.upcoming).returned := by
  simp only [upcoming, ← waitLoop_upcoming waitSignal session session.events rfl, internalWait,
    known, if_true, Option.map_map]
  rfl

/--
`internalWait` returns on the first outcome that decides the wait, with the state that outcome
stands for, and passes every other signal that comes until then to the target once, in order.
-/
structure Classifies (session : Session) (waitSignal : Signal) : Prop where
  returned : (session.internalWait waitSignal).map (fun result => (result.1, result.2.upcoming)) =
    (classified waitSignal session.upcoming).returned
  passed : (waitOutcomes waitSignal session.errno session.upcoming).passed =
    (classified waitSignal session.upcoming).passed

/-- A wait is classified correctly iff no stop is continued while an `errno` is left over. -/
theorem internalWait_classifies_iff (known : session.target.pidKnown = true)
    (wellFormed : ∀ outcome ∈ session.upcoming, outcome.WellFormed) :
    session.Classifies waitSignal ↔ NeverStale waitSignal session.errno session.upcoming := by
  rw [← waitOutcomes_eq_classified_iff wellFormed]
  constructor
  · rintro ⟨returned, passed⟩
    rw [internalWait_upcoming known] at returned
    exact WaitResult.ext returned passed
  · intro same
    refine ⟨?_, congrArg WaitResult.passed same⟩
    rw [internalWait_upcoming known, same]

/-! ## An interruption before another signal -/

def SIGCHLD : Signal := 20

def sleepingTask : Target where
  memory _ := 0x90#8
  live := [1]
  thread _ := ⟨.state32 default, ⟨.running, 0⟩⟩
  suspendCount := 0
  pidKnown := true

/-- A wait is interrupted, sees another signal and then the one it waits for. -/
def interruptedWait : Session :=
  attached sleepingTask [fun target => some (target, .failed EINTR),
    fun target => some (target, .stopped SIGCHLD none),
    fun target => some (target, .stopped SIG_TRAP none)]

theorem wellFormed_interruptedWait : ∀ outcome ∈ interruptedWait.upcoming, outcome.WellFormed := by
  have outcomes : interruptedWait.upcoming =
      [.failed EINTR, .stopped SIGCHLD none, .stopped SIG_TRAP none] := rfl
  simp [outcomes, WaitOutcome.WellFormed]

theorem internalWait_classifies_iff_interruptedWait :
    interruptedWait.Classifies SIG_TRAP ↔ NeverStale SIG_TRAP 0 interruptedWait.upcoming := by
  exact internalWait_classifies_iff rfl wellFormed_interruptedWait

/-- The signal is passed on, but the wait is over with `PRS_UNKNOWN` before the stop. -/
theorem interruptedWait_unknown :
    (interruptedWait.internalWait SIG_TRAP).map (fun result => (result.1, result.2.upcoming)) =
        some (.PRS_UNKNOWN, [.stopped SIG_TRAP none]) ∧
      classified SIG_TRAP interruptedWait.upcoming = ⟨some (.PRS_STOPPED, []), [SIGCHLD]⟩ ∧
      ¬interruptedWait.Classifies SIG_TRAP := by
  have unknown : (interruptedWait.internalWait SIG_TRAP).map
      (fun result => (result.1, result.2.upcoming)) =
        some (.PRS_UNKNOWN, [.stopped SIG_TRAP none]) := rfl
  have expected : classified SIG_TRAP interruptedWait.upcoming =
      ⟨some (.PRS_STOPPED, []), [SIGCHLD]⟩ := rfl
  refine ⟨unknown, expected, ?_⟩
  rintro ⟨returned, -⟩
  simp [unknown, expected] at returned

end Session

end RustDbg
