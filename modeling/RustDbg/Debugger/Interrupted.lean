import RustDbg.Debugger.Life
import RustDbg.Debugger.Turn

/-!
# Commands whose waits end without a stop

Before it waits for a single step the debugger switches a breakpoint off and sets a trap flag.
`MDBDebugger::step` sets the breakpoint again whatever comes of the wait, and
`checkForBreakpointsAndStep` only when the wait ends with a stop; the trap flag is cleared only
then in both of them.
-/

namespace RustDbg

/-- The trap flag of a live 32-bit thread is set. -/
def Target.trapFlag (target : Target) (port : ThreadPort) : Bool :=
  (target.threadGetState32 port).any (·.trapFlag)

/-- While it runs until an event no program sets a trap flag of its own. -/
def WaitEvent.SetsNoTrapFlag (event : WaitEvent) : Prop :=
  ∀ target after outcome, event target = some (after, outcome) →
    ∀ port, target.trapFlag port = false → after.trapFlag port = false

/-- While it runs until an event no program sets or clears a trap flag of its own. -/
def WaitEvent.KeepsTrapFlags (event : WaitEvent) : Prop :=
  ∀ target after outcome, event target = some (after, outcome) →
    ∀ port, after.trapFlag port = target.trapFlag port

namespace Session

variable {session next last stopped : Session} {index : Nat} {thread : MDBThread}
  {ref other : BreakpointRef} {flag : Bool} {state : MDBProcessRunState} {waitSignal : Signal}

/-- Whether a breakpoint is enabled. -/
def flagOf (session : Session) (ref : BreakpointRef) : Option Bool :=
  (session.breakpointState.deref ref).map (·.enabled)

/-- The returns of the waits made between two sessions. -/
def waitsUntil (before after : Session) : List WaitReturn := after.waits.drop before.waits.length

/-- All waits made between two sessions have ended with a stop. -/
def AllStopped (before after : Session) : Prop :=
  ∀ waitReturn ∈ before.waitsUntil after, waitReturn.state = .PRS_STOPPED

/-! ## The waits of a command -/

theorem waits_internalWait (returned : session.internalWait waitSignal = some (state, last)) :
    ∃ waitReturn, waitReturn.state = state ∧ last.waits = session.waits ++ [waitReturn] := by
  rcases internalWait_cases returned with ⟨-, rfl, rfl⟩ | ⟨-, next, looped, rfl⟩
  · exact ⟨_, rfl, rfl⟩
  · have same : next.waits = session.waits := by
      have kept {middle next : Session} {rest : List WaitEvent} {target : Target}
          {outcome : WaitOutcome} {result : Option MDBProcessRunState}
          (reaction : react waitSignal outcome (middle.report rest target outcome) =
            (result, next)) : next.waits = middle.waits := by
        have reacted := (history_react waitSignal outcome (middle.report rest target outcome)).2
        simp only [reaction] at reacted
        exact reacted
      refine waitLoop_rule (fun _ middle => middle.waits = session.waits)
        (fun _ middle => middle.waits = session.waits) ?_ ?_ rfl looped
      · exact fun _ _ _ _ _ _ same _ reaction => (kept reaction).trans same
      · exact fun _ _ _ _ _ _ _ same _ reaction => (kept reaction).trans same
    refine ⟨⟨state, next.process.running, next.observed⟩, rfl, ?_⟩
    rw [← same]
    rfl

theorem isPrefix_waits (advances : Advances session last) : session.waits <+: last.waits := by
  refine advances.preserves (fun middle => session.waits <+: middle.waits) ?_ ?_ List.prefix_rfl
  · intro before after earlier quiet
    rw [quiet.waits]
    exact earlier
  · intro before state after earlier returned
    rcases waits_internalWait returned with ⟨waitReturn, -, waits⟩
    rw [waits]
    exact earlier.trans (List.prefix_append _ _)

theorem waitsUntil_cons {waitReturn : WaitReturn}
    (first : next.waits = session.waits ++ [waitReturn]) (grown : next.waits <+: last.waits) :
    session.waitsUntil last = waitReturn :: next.waitsUntil last := by
  rcases grown with ⟨later, waits⟩
  simp only [waitsUntil, ← waits, first, List.drop_left]
  rw [List.append_assoc, List.drop_left]
  rfl

/-! ## The flags of breakpoints -/

theorem flagOf_assign (state : BreakpointState) (breakpoint : MDBBreakpoint)
    (ref other : BreakpointRef) :
    ((state.assign breakpoint ref).deref other).map (·.enabled) =
      if other = ref then (state.deref ref).map fun _ => breakpoint.enabled
      else (state.deref other).map (·.enabled) := by
  have entry (breakpoints : List MDBBreakpoint) (index position : Nat) :
      ((breakpoints.set index breakpoint)[position]?).map (·.enabled) =
        if position = index then (breakpoints[index]?).map fun _ => breakpoint.enabled
        else (breakpoints[position]?).map (·.enabled) := by
    by_cases here : position = index
    · subst here
      simp only [List.getElem?_set_self', if_true]
      cases breakpoints[position]? <;> rfl
    · rw [List.getElem?_set_ne (Ne.symm here), if_neg here]
  cases ref with
  | regular index =>
      cases other with
      | regular position =>
          simp only [BreakpointRef.regular.injEq]
          exact entry state.breakpoints index position
      | transient position => rfl
  | transient index =>
      cases other with
      | regular position => rfl
      | transient position =>
          simp only [BreakpointRef.transient.injEq]
          exact entry state.transientBreakpoints index position

/-- A switch sets the flag of one breakpoint, whatever comes of its memory accesses. -/
theorem flagOf_enable (session : Session) (ref other : BreakpointRef) (flag : Bool) :
    (session.enable ref flag).flagOf other =
      if other = ref then (session.flagOf ref).map fun _ => flag else session.flagOf other := by
  change ((session.breakpointState.enable session.nextAccess.1 ref flag).deref other).map
    (·.enabled) = _
  simp only [flagOf]
  generalize session.breakpointState = state
  generalize session.nextAccess.1 = outcome
  cases pointed : state.deref ref with
  | none =>
      simp only [BreakpointState.enable, pointed, Option.map_none]
      split
      · rename_i same
        rw [same, pointed]
        rfl
      · rfl
  | some breakpoint =>
      have moved (memory : Memory) (switched : MDBBreakpoint) :
          ((({ state with memory } : BreakpointState).assign switched ref).deref other).map
              (·.enabled) =
            if other = ref then some switched.enabled
            else (state.deref other).map (·.enabled) := by
        have derefs (ref : BreakpointRef) :
            ({ state with memory } : BreakpointState).deref ref = state.deref ref := by
          cases ref <;> rfl
        rw [flagOf_assign, derefs, derefs, pointed]
        rfl
      by_cases same : breakpoint.enabled = flag
      · rw [BreakpointState.enable_of_eq pointed same]
        split
        · rename_i here
          rw [here, pointed, ← same]
          rfl
        · rfl
      · have answered :
            (state.read outcome.readOk [breakpoint.patch] breakpoint.address).2 ≠ 0 := by
          cases readOk : outcome.readOk <;> simp [BreakpointState.read, intOfSize]
        cases flag with
        | true =>
            have disabled : breakpoint.enabled = false := by simpa using same
            simp only [BreakpointState.enable, pointed, disabled, and_self, if_true,
              BreakpointState.write_byte, answered, ne_eq, not_false_eq_true, moved]
            rfl
        | false =>
            have enabled : breakpoint.enabled = true := by simpa using same
            simp only [BreakpointState.enable, pointed, enabled, BreakpointState.write_byte,
              Bool.true_eq_false, false_and, if_false, and_self, if_true, moved]
            rfl

theorem flagOf_congr (breakpoints : last.breakpoints = session.breakpoints)
    (transientBreakpoints : last.transientBreakpoints = session.transientBreakpoints)
    (ref : BreakpointRef) : last.flagOf ref = session.flagOf ref := by
  cases ref <;> simp [flagOf, BreakpointState.deref, breakpointState, breakpoints,
    transientBreakpoints]

theorem flagOf_of_findEnabled {address : Address}
    (found : session.findEnabled address = some ref) : session.flagOf ref = some true := by
  rcases deref_of_findEnabled found with ⟨breakpoint, pointed, enabled, -⟩
  simp [flagOf, pointed, enabled]

/-- The wait for a single step leaves the flags as they were. -/
theorem flagOf_waited
    (returned : (session.singleStepToWait index).internalWait SIG_TRAP = some (state, last))
    (ref : BreakpointRef) : last.flagOf ref = session.flagOf ref := by
  have same := SameSettings.internalWait returned
  rcases exists_singleStepToWait_eq session index with ⟨target, -, prepared⟩
  rw [prepared] at same
  exact flagOf_congr same.breakpoints same.transientBreakpoints ref

/-- A step-off keeps the flags if its wait ends with a stop, and clears one of them otherwise. -/
theorem flagOf_stepOff (enabled : session.flagOf ref = some true)
    (stepped : session.stepOff index ref = some next) :
    ∃ waitReturn, next.waits = session.waits ++ [waitReturn] ∧
      (waitReturn.state = .PRS_STOPPED → ∀ other, next.flagOf other = session.flagOf other) ∧
      (waitReturn.state ≠ .PRS_STOPPED → next.flagOf ref = some false ∧
        ∀ other, next.flagOf other = some true → session.flagOf other = some true) := by
  rcases stepOff_cases stepped with ⟨state, waited, returned, next_eq⟩
  have waits_eq : next.waits = waited.waits := by
    rw [next_eq]
    split <;> rfl
  have before := (Quiet.disable session ref).trans (.singleStepToWait _ index)
  have flags (other : BreakpointRef) :
      waited.flagOf other = if other = ref then some false else session.flagOf other := by
    rw [flagOf_waited returned, disable, flagOf_enable, enabled]
    rfl
  rcases waits_internalWait returned with ⟨waitReturn, rfl, noted⟩
  rw [before.waits] at noted
  refine ⟨waitReturn, waits_eq.trans noted, ?_, ?_⟩
  · intro stops other
    rw [next_eq, if_pos stops, flagOf_enable]
    change (if other = ref then (waited.flagOf ref).map fun _ => true else waited.flagOf other) = _
    simp only [flags, if_true, Option.map_some]
    split
    · rename_i here
      rw [here, enabled]
    · rfl
  · intro goesOn
    rw [next_eq, if_neg goesOn]
    refine ⟨by simp [flags], ?_⟩
    intro other set
    by_cases here : other = ref
    · simp [flags, here] at set
    · simpa [flags, here] using set

/-- The loop gives every breakpoint its flag back iff all of its waits end with a stop. -/
theorem flagOf_stepOffFrom (stepped : session.stepOffFrom index = some last) :
    (∀ ref, last.flagOf ref = some true → session.flagOf ref = some true) ∧
      ((∀ ref, last.flagOf ref = session.flagOf ref) ↔ session.AllStopped last) := by
  fun_induction stepOffFrom session index with
  | case1 session index inTable none ih => exact ih stepped
  | case2 session index inTable breakpoint found stuck => simp at stepped
  | case3 session index inTable ref found middle steppedOff ih =>
      rcases ih stepped with ⟨cleared, flags⟩
      have enabled := flagOf_of_findEnabled found
      rcases flagOf_stepOff enabled steppedOff with ⟨waitReturn, noted, stops, goesOn⟩
      have waits : session.waitsUntil last = waitReturn :: middle.waitsUntil last :=
        waitsUntil_cons noted (isPrefix_waits (advances_stepOffFrom stepped))
      by_cases stopped : waitReturn.state = .PRS_STOPPED
      · have same := stops stopped
        simp only [AllStopped, waits, List.forall_mem_cons, stopped, true_and, ← same]
        exact ⟨cleared, flags⟩
      · rcases goesOn stopped with ⟨off, fewer⟩
        refine ⟨fun other set => fewer other (cleared other set), ?_⟩
        simp only [AllStopped, waits, List.forall_mem_cons, stopped, false_and, iff_false]
        intro same
        have back := cleared ref ((same ref).trans enabled)
        simp [off] at back
  | case4 session index outside =>
      rcases Option.some.inj stepped with rfl
      refine ⟨fun ref set => set, ?_⟩
      simp [AllStopped, waitsUntil]

/-- A step waits once, and enables the breakpoint it has disabled whatever comes of that. -/
theorem step_cases {answer : Bool} (stepped : session.step index = some (answer, next)) :
    ∃ thread state waited, session.process.threads[index]? = some thread ∧
      (((session.findEnabled thread.state32.pc).elim session session.disable).singleStepToWait
        index).internalWait SIG_TRAP = some (state, waited) ∧
      next = (session.findEnabled thread.state32.pc).elim
        (if state = .PRS_STOPPED then waited.enableSingleStep index false else waited)
        ((if state = .PRS_STOPPED then waited.enableSingleStep index false else waited).enable
          · true) := by
  simp only [step, Option.bind_eq_bind, Option.bind_eq_some_iff, Prod.exists, Option.pure_def,
    Option.some.injEq, Prod.mk.injEq] at stepped
  rcases stepped with ⟨thread, present, state, waited, returned, -, rfl⟩
  exact ⟨thread, state, waited, present, returned, rfl⟩

/-- `step` gives every breakpoint its flag back, whatever comes of its wait. -/
theorem flagOf_step {answer : Bool} (stepped : session.step index = some (answer, next))
    (other : BreakpointRef) : next.flagOf other = session.flagOf other := by
  rcases step_cases stepped with ⟨thread, state, waited, -, returned, rfl⟩
  have waitedFlags := flagOf_waited returned
  have kept (other : BreakpointRef) : (if state = .PRS_STOPPED
      then waited.enableSingleStep index false else waited).flagOf other = waited.flagOf other := by
    split <;> rfl
  generalize (if state = .PRS_STOPPED then waited.enableSingleStep index false else waited) =
    ended at kept
  cases found : session.findEnabled thread.state32.pc with
  | none =>
      simp only [found, Option.elim_none] at waitedFlags ⊢
      rw [kept, waitedFlags]
  | some ref =>
      have enabled := flagOf_of_findEnabled found
      simp only [found, Option.elim_some] at waitedFlags ⊢
      simp only [flagOf_enable, kept, waitedFlags, disable, enabled, if_true, Option.map_some]
      split
      · rename_i here
        rw [here, enabled]
      · rfl

theorem breakpointState_checkForBreakpointsAndStepBack (session : Session) :
    session.checkForBreakpointsAndStepBack.breakpointState = session.breakpointState := by
  simp only [checkForBreakpointsAndStepBack]
  induction List.range session.process.threads.length generalizing session with
  | nil => rfl
  | cons index rest ih =>
      simp only [List.foldl_cons, ih]
      cases present : session.process.threads[index]? with
      | none => simp only [stepBackThread, present]
      | some thread => exact (stepBackThread_spec present).1

/-- The flags are the same when `resume` returns and when it lets the target run. -/
theorem flagOf_resume {answer : Bool} (resumed : session.resume = some (answer, next)) :
    ∃ freed, session.resumeToWait = some freed ∧
      ∀ ref, next.flagOf ref = freed.flagOf ref := by
  rcases resume_cases resumed with ⟨freed, state, waited, prepared, returned, -, rfl⟩
  refine ⟨freed, prepared, ?_⟩
  intro ref
  have same := SameSettings.internalWait returned
  have waitedFlags := flagOf_congr same.breakpoints same.transientBreakpoints ref
  split
  · rw [flagOf, breakpointState_checkForBreakpointsAndStepBack]
    exact waitedFlags
  · exact waitedFlags

/-! ## Trap flags -/

/-- Neither the thread nor the debugger's copy of its registers has the trap flag. -/
structure Untrapped (session : Session) (port : ThreadPort) : Prop where
  running : session.target.trapFlag port = false
  cached : (session.process.entry port).state32.trapFlag = false

variable {port : ThreadPort}

theorem trapFlag_congr {first second : Target} (same : first.SameExecution second)
    (port : ThreadPort) : second.trapFlag port = first.trapFlag port := by
  simp only [Target.trapFlag, threadGetState32_congr same.live (same.registers port)]

theorem trapFlag_threadSetState32 (target : Target) (port other : ThreadPort)
    (registers : MDBThreadState32) :
    (target.threadSetState32 port registers).trapFlag other =
      if other = port then (target.threadGetState32 port).isSome && registers.trapFlag
      else target.trapFlag other := by
  simp only [Target.trapFlag, threadGetState32_threadSetState32]
  split
  · cases target.threadGetState32 port <;> simp
  · rfl

theorem trapFlag_enableSingleStep (present : session.process.threads[index]? = some thread)
    (flag : Bool) (port : ThreadPort) :
    (session.enableSingleStep index flag).target.trapFlag port =
      if port = thread.thread then
        (session.target.threadGetState32 thread.thread).isSome && flag
      else session.target.trapFlag port := by
  rw [enableSingleStep_eq present, trapFlag_threadSetState32,
    MDBThreadState32.trapFlag_withTrapFlag]

/-- A commit of registers without the trap flag sets none. -/
theorem Untrapped.commit (untrapped : session.Untrapped port)
    (distinct : session.process.ports.Nodup)
    (present : session.process.threads[index]? = some thread)
    (edit : MDBThreadState32 → MDBThreadState32)
    (clear : port = thread.thread → (edit thread.state32).trapFlag = false) :
    let process := { session.process with
      threads := session.process.threads.modify index fun thread =>
        { thread with state32 := edit thread.state32 } }
    ({ session with process, target := process.machCommitThread session.target index } :
      Session).Untrapped port := by
  intro process
  have committed : process.machCommitThread session.target index =
      session.target.threadSetState32 thread.thread (edit thread.state32) := by
    simp [process, MDBProcess.machCommitThread, present]
  have entry : process.entry port =
      if port = thread.thread then { thread with state32 := edit thread.state32 }
      else session.process.entry port := by
    refine MDBProcess.entry_modify ?_ distinct present
    exact fun _ => rfl
  constructor
  · simp only [committed, trapFlag_threadSetState32]
    split
    · rename_i own
      rw [clear own, Bool.and_false]
    · exact untrapped.running
  · simp only [entry]
    split
    · rename_i own
      exact clear own
    · exact untrapped.cached

theorem Untrapped.enableSingleStep_of_ne (untrapped : session.Untrapped port)
    (distinct : session.process.ports.Nodup)
    (present : session.process.threads[index]? = some thread) (different : port ≠ thread.thread)
    (flag : Bool) : (session.enableSingleStep index flag).Untrapped port := by
  apply untrapped.commit distinct present (·.withTrapFlag flag)
  exact fun own => absurd own different

theorem untrapped_enableSingleStep_false (distinct : session.process.ports.Nodup)
    (present : session.process.threads[index]? = some thread)
    (others : port ≠ thread.thread → session.Untrapped port) :
    (session.enableSingleStep index false).Untrapped port := by
  by_cases own : port = thread.thread
  · constructor
    · rw [trapFlag_enableSingleStep present, if_pos own, Bool.and_false]
    · rw [entry_enableSingleStep distinct present, if_pos own]
      exact MDBThreadState32.trapFlag_withTrapFlag _ _
  · exact (others own).enableSingleStep_of_ne distinct present own false

theorem Untrapped.sameExecution (untrapped : session.Untrapped port) {target : Target}
    (same : session.target.SameExecution target) :
    ({ session with target } : Session).Untrapped port :=
  ⟨(trapFlag_congr same port).trans untrapped.running, untrapped.cached⟩

theorem Untrapped.gatherThreads (untrapped : session.Untrapped port) :
    session.gatherThreads.Untrapped port := by
  refine ⟨untrapped.running, ?_⟩
  have running := untrapped.running
  change ((session.process.gatherThreads session.target).entry port).state32.trapFlag = false
  simp only [Target.trapFlag] at running
  rw [MDBProcess.entry_gatherThreads]
  split
  · simp only [MDBThread.update, MDBProcess.thread_entry]
    split
    · exact untrapped.cached
    · cases state : session.target.threadGetState32 port with
      | none => exact untrapped.cached
      | some registers =>
          simp only [state, Option.any_some] at running
          exact running
  · exact untrapped.cached

theorem Untrapped.react (untrapped : session.Untrapped port) (waitSignal : Signal)
    (outcome : WaitOutcome) : (react waitSignal outcome session).2.Untrapped port := by
  cases outcome with
  | failed error =>
      simp only [Session.react]
      split
      · exact ⟨untrapped.running, untrapped.cached⟩
      · have noted : ({ session with errno := error } : Session).Untrapped port :=
          ⟨untrapped.running, untrapped.cached⟩
        exact noted.gatherThreads
  | exited code => exact ⟨untrapped.running, untrapped.cached⟩
  | signaled signal => exact untrapped.gatherThreads
  | stopped signal continueError =>
      have gathered := untrapped.gatherThreads
      simp only [Session.react]
      split
      · exact gathered
      · have noted : ({ session.gatherThreads with
            errno := continueError.getD session.gatherThreads.errno } : Session).Untrapped port :=
          ⟨gathered.running, gathered.cached⟩
        split
        · exact noted.gatherThreads
        · exact noted

/-- A wait in which no program sets a trap flag leaves none that was not there. -/
theorem Untrapped.internalWait (untrapped : session.Untrapped port)
    (setsNone : ∀ event ∈ session.events, WaitEvent.SetsNoTrapFlag event)
    (returned : session.internalWait waitSignal = some (state, last)) : last.Untrapped port := by
  refine internalWait_invariant WaitEvent.SetsNoTrapFlag (Untrapped · port) ?_ ?_ setsNone
    untrapped returned
  · intro event rest middle target outcome setsNone earlier reported
    have report : (middle.report rest target outcome).Untrapped port :=
      ⟨setsNone _ _ _ reported port earlier.running, earlier.cached⟩
    exact report.react waitSignal outcome
  · intro middle state earlier
    exact ⟨earlier.running, earlier.cached⟩

/-- A wait uses up events only. -/
theorem mem_events_of_internalWait {event : WaitEvent}
    (returned : session.internalWait waitSignal = some (state, last))
    (mem : event ∈ last.events) : event ∈ session.events := by
  rcases internalWait_cases returned with ⟨-, -, rfl⟩ | ⟨known, -, -⟩
  · exact mem
  · rcases events_internalWait known returned with ⟨used, -, split⟩
    rw [split]
    exact List.mem_append_right used mem

theorem Untrapped.singleStepToWait_of_ne (untrapped : session.Untrapped port)
    (distinct : session.process.ports.Nodup)
    (present : session.process.threads[index]? = some thread)
    (different : port ≠ thread.thread) : (session.singleStepToWait index).Untrapped port := by
  rcases exists_singleStepToWait_eq session index with ⟨target, same, prepared⟩
  have flagged := untrapped.enableSingleStep_of_ne distinct present different true
  rw [prepared]
  exact flagged.sameExecution same

/-- When a single step has ended with a stop no trap flag is left of it. -/
theorem Untrapped.singleStep (untrapped : session.Untrapped port)
    (distinct : session.process.ports.Nodup)
    (present : session.process.threads[index]? = some thread)
    (setsNone : ∀ event ∈ session.events, WaitEvent.SetsNoTrapFlag event)
    (returned : (session.singleStepToWait index).internalWait SIG_TRAP =
      some (.PRS_STOPPED, stopped)) : (stopped.enableSingleStep index false).Untrapped port := by
  have quiet := Quiet.singleStepToWait session index
  have distinctBefore : (session.singleStepToWait index).process.ports.Nodup :=
    quiet.ports ▸ distinct
  have distinctNow := (SameSettings.internalWait returned).process.distinct distinctBefore
  rcases exists_thread_of_stopped quiet.ports present returned with ⟨now, presentNow, port_eq⟩
  apply untrapped_enableSingleStep_false distinctNow presentNow
  intro different
  rw [port_eq] at different
  have prepared := untrapped.singleStepToWait_of_ne distinct present different
  exact prepared.internalWait (quiet.events ▸ setsNone) returned

/-- Stepping a thread back commits its registers, in which the trap flag is clear. -/
theorem Untrapped.stepBackThread (untrapped : session.Untrapped port)
    (distinct : session.process.ports.Nodup) (index : Nat) :
    (session.stepBackThread index).Untrapped port := by
  cases present : session.process.threads[index]? with
  | none =>
      simp only [Session.stepBackThread, present]
      exact untrapped
  | some thread =>
      simp only [Session.stepBackThread, present]
      split
      · exact untrapped
      · rename_i ref _
        have reached : (session.onBreakpointReached thread.thread ref).Untrapped port :=
          ⟨untrapped.running, untrapped.cached⟩
        apply reached.commit distinct present (fun state => { state with eip := state.eip + -1 })
        intro own
        have cached := untrapped.cached
        rw [own, MDBProcess.entry_eq_of_getElem? distinct present,
          MDBThreadState32.trapFlag] at cached
        rw [MDBThreadState32.trapFlag]
        exact cached

theorem Untrapped.checkForBreakpointsAndStepBack (untrapped : session.Untrapped port)
    (distinct : session.process.ports.Nodup) :
    session.checkForBreakpointsAndStepBack.Untrapped port := by
  simp only [Session.checkForBreakpointsAndStepBack]
  induction List.range session.process.threads.length generalizing session with
  | nil => exact untrapped
  | cons index rest ih =>
      apply ih (untrapped.stepBackThread distinct index)
      rw [(Quiet.stepBackThread session index).ports]
      exact distinct

/-- Threads that step off breakpoints, each to a stop, are left without the trap flag. -/
theorem Untrapped.stepOffFrom (untrapped : session.Untrapped port)
    (distinct : session.process.ports.Nodup)
    (setsNone : ∀ event ∈ session.events, WaitEvent.SetsNoTrapFlag event)
    (stepped : session.stepOffFrom index = some last) (stops : session.AllStopped last) :
    last.Untrapped port ∧ last.process.ports.Nodup ∧
      ∀ event ∈ last.events, WaitEvent.SetsNoTrapFlag event := by
  fun_induction Session.stepOffFrom session index with
  | case1 session index inTable none ih => exact ih untrapped distinct setsNone stepped stops
  | case2 session index inTable breakpoint found stuck => simp at stepped
  | case3 session index inTable ref found middle steppedOff ih =>
      rcases stepOff_cases steppedOff with ⟨state, waited, returned, middle_eq⟩
      have quiet := (Quiet.disable session ref).trans (.singleStepToWait _ index)
      have distinctBefore : ((session.disable ref).singleStepToWait index).process.ports.Nodup :=
        quiet.ports ▸ distinct
      have distinctWaited := (SameSettings.internalWait returned).process.distinct distinctBefore
      rcases waits_internalWait returned with ⟨waitReturn, rfl, noted⟩
      rw [quiet.waits] at noted
      have waits_eq : middle.waits = session.waits ++ [waitReturn] := by
        rw [middle_eq, ← noted]
        split <;> rfl
      have waits := waitsUntil_cons waits_eq (isPrefix_waits (advances_stepOffFrom stepped))
      simp only [AllStopped, waits, List.forall_mem_cons] at stops
      rcases stops with ⟨stopped, rest⟩
      rw [stopped] at returned
      rw [if_pos stopped] at middle_eq
      have cleared : (session.disable ref).Untrapped port := ⟨untrapped.running, untrapped.cached⟩
      have present : (session.disable ref).process.threads[index]? =
          some session.process.threads[index] := List.getElem?_eq_getElem inTable
      have settled := cleared.singleStep distinct present setsNone returned
      apply ih _ _ _ stepped rest
      · rw [middle_eq]
        exact ⟨settled.running, settled.cached⟩
      · rw [middle_eq]
        change (waited.enableSingleStep index false).process.ports.Nodup
        rw [(Quiet.enableSingleStep waited index false).ports]
        exact distinctWaited
      · rw [middle_eq]
        intro event mem
        have used : event ∈ ((session.disable ref).singleStepToWait index).events :=
          mem_events_of_internalWait returned mem
        rw [quiet.events] at used
        exact setsNone event used
  | case4 session index outside =>
      rcases Option.some.inj stepped with rfl
      exact ⟨untrapped, distinct, setsNone⟩

/-- A `resume` whose single steps have all ended with a stop leaves no trap flag behind. -/
theorem Untrapped.resume {freed : Session} {answer : Bool} (untrapped : session.Untrapped port)
    (distinct : session.process.ports.Nodup)
    (setsNone : ∀ event ∈ session.events, WaitEvent.SetsNoTrapFlag event)
    (prepared : session.resumeToWait = some freed) (stops : session.AllStopped freed)
    (resumed : session.resume = some (answer, next)) : next.Untrapped port := by
  rcases resume_cases resumed with ⟨freed', state, waited, prepared', returned, -, rfl⟩
  rcases Option.some.inj (prepared'.symm.trans prepared) with rfl
  simp only [resumeToWait, Option.map_eq_some_iff] at prepared
  rcases prepared with ⟨last, stepped, rfl⟩
  have quiet := Quiet.machResumeThreadsAndTask last
  have stopsLast : session.AllStopped last := by
    simp only [AllStopped, waitsUntil, quiet.waits] at stops
    exact stops
  rcases untrapped.stepOffFrom distinct setsNone stepped stopsLast with
    ⟨settled, distinctLast, setsNoneLast⟩
  have same := MDBProcess.sameExecution_resumeThreads last.process.threads last.target
  have freed : last.machResumeThreadsAndTask.Untrapped port := settled.sameExecution same
  have ended := freed.internalWait (quiet.events ▸ setsNoneLast) returned
  have distinctEnded := (SameSettings.internalWait returned).process.distinct
    (quiet.ports ▸ distinctLast)
  split
  · exact ended.checkForBreakpointsAndStepBack distinctEnded
  · exact ended

/-! ## What is lost -/

/-- A wait keeps the trap flags where no program changes its own. -/
theorem trapFlag_internalWait
    (keeps : ∀ event ∈ session.events, WaitEvent.KeepsTrapFlags event)
    (returned : session.internalWait waitSignal = some (state, last)) (port : ThreadPort) :
    last.target.trapFlag port = session.target.trapFlag port := by
  refine internalWait_invariant WaitEvent.KeepsTrapFlags
    (fun middle => middle.target.trapFlag port = session.target.trapFlag port) ?_ ?_ keeps rfl
    returned
  · intro event rest middle target outcome keeps earlier reported
    rw [target_react, ← earlier]
    exact keeps _ _ _ reported port
  · intro middle state earlier
    exact earlier

/-- Where no program sets its trap flag, one that is clear before a wait is clear behind it. -/
theorem clear_internalWait (setsNone : ∀ event ∈ session.events, WaitEvent.SetsNoTrapFlag event)
    (clear : session.target.trapFlag port = false)
    (returned : session.internalWait waitSignal = some (state, last)) :
    last.target.trapFlag port = false := by
  refine internalWait_invariant WaitEvent.SetsNoTrapFlag
    (fun middle => middle.target.trapFlag port = false) ?_ ?_ setsNone clear returned
  · intro event rest middle target outcome setsNone earlier reported
    rw [target_react]
    exact setsNone _ _ _ reported port earlier
  · intro middle state earlier
    exact earlier

/--
Every breakpoint has the flag it had before the command, and where no program has set a trap
flag of its own, no thread is left with one it did not have before.
-/
structure LosesNothing (before after : Session) : Prop where
  flags : ∀ ref, after.flagOf ref = before.flagOf ref
  trapFlags : (∀ event ∈ before.events, WaitEvent.SetsNoTrapFlag event) →
    ∀ port, before.Untrapped port → after.target.trapFlag port = false

/-- Preparing a single step sets the trap flag of a thread that did not have it. -/
def TakesTrapFlag (session : Session) (thread : MDBThread) : Prop :=
  session.Untrapped thread.thread ∧ (session.target.threadGetState32 thread.thread).isSome

theorem trapFlag_singleStepToWait (present : session.process.threads[index]? = some thread) :
    (session.singleStepToWait index).target.trapFlag thread.thread =
      (session.target.threadGetState32 thread.thread).isSome := by
  rcases exists_singleStepToWait_eq session index with ⟨target, same, prepared⟩
  rw [prepared]
  apply (trapFlag_congr same thread.thread).trans
  rw [trapFlag_enableSingleStep present, if_pos rfl, Bool.and_true]

/-- What comes of a step, but for the breakpoint that is switched off for it. -/
theorem step_effect {answer : Bool} (present : session.process.threads[index]? = some thread)
    (stepped : session.step index = some (answer, next)) :
    ∃ cleared state waited, Quiet session cleared ∧
      cleared.process = session.process ∧
      (∀ port, cleared.target.threadGetState32 port = session.target.threadGetState32 port) ∧
      (cleared.singleStepToWait index).internalWait SIG_TRAP = some (state, waited) ∧
      (session.AllStopped next ↔ state = .PRS_STOPPED) ∧
      ∀ port, next.target.trapFlag port =
        (if state = .PRS_STOPPED then waited.enableSingleStep index false
          else waited).target.trapFlag port := by
  rcases step_cases stepped with ⟨thread', state, waited, present', returned, next_eq⟩
  rcases Option.some.inj (present'.symm.trans present) with rfl
  have quiet := Quiet.elim_disable session (session.findEnabled thread'.state32.pc)
  refine ⟨_, state, waited, quiet, ?_, ?_, returned, ?_, ?_⟩
  · cases session.findEnabled thread'.state32.pc <;> rfl
  · cases session.findEnabled thread'.state32.pc <;> exact fun _ => rfl
  · rcases waits_internalWait returned with ⟨waitReturn, rfl, noted⟩
    rw [(quiet.trans (.singleStepToWait _ index)).waits] at noted
    have next_waits : next.waits = waited.waits := by
      rw [next_eq]
      cases session.findEnabled thread'.state32.pc <;> simp only [Option.elim] <;> split <;> rfl
    simp [AllStopped, waitsUntil, next_waits, noted]
  · intro port
    rw [next_eq]
    cases session.findEnabled thread'.state32.pc <;> rfl

/-- A step whose wait ends with a stop, or that sets no trap flag, leaves none behind. -/
theorem step_loses_nothing {answer : Bool} (distinct : session.process.ports.Nodup)
    (present : session.process.threads[index]? = some thread)
    (stepped : session.step index = some (answer, next))
    (stopsOrNone : session.TakesTrapFlag thread → session.AllStopped next) :
    session.LosesNothing next := by
  refine ⟨flagOf_step stepped, ?_⟩
  intro setsNone port untrapped
  rcases step_effect present stepped with
    ⟨cleared, state, waited, quiet, process, target, returned, ended, trapFlag⟩
  have presentCleared : cleared.process.threads[index]? = some thread := process ▸ present
  have clearedUntrapped : cleared.Untrapped port := by
    refine ⟨?_, process ▸ untrapped.cached⟩
    rw [Target.trapFlag, target]
    exact untrapped.running
  rw [trapFlag]
  by_cases stopped : state = .PRS_STOPPED
  · rcases stopped with rfl
    rw [if_pos rfl]
    have settled := clearedUntrapped.singleStep (process ▸ distinct) presentCleared
      (quiet.events ▸ setsNone) returned
    exact settled.running
  · rw [if_neg stopped]
    have events : (cleared.singleStepToWait index).events = session.events :=
      (quiet.trans (.singleStepToWait cleared index)).events
    apply clear_internalWait (events ▸ setsNone) ?_ returned
    by_cases here : port = thread.thread
    · rw [here, trapFlag_singleStepToWait presentCleared, target]
      cases answers : (session.target.threadGetState32 thread.thread).isSome with
      | false => rfl
      | true => exact absurd (ended.mp (stopsOrNone ⟨here ▸ untrapped, answers⟩)) stopped
    · exact (clearedUntrapped.singleStepToWait_of_ne (process ▸ distinct) presentCleared
        here).running

/-- Where programs leave their trap flags alone, a step without a stop leaves the one it set. -/
theorem step_loses_nothing_iff {answer : Bool} (distinct : session.process.ports.Nodup)
    (present : session.process.threads[index]? = some thread)
    (keeps : ∀ event ∈ session.events, WaitEvent.KeepsTrapFlags event)
    (stepped : session.step index = some (answer, next)) :
    session.LosesNothing next ↔ (session.TakesTrapFlag thread → session.AllStopped next) := by
  constructor
  · rintro nothing ⟨untrapped, answers⟩
    by_contra notAll
    have setsNone : ∀ event ∈ session.events, WaitEvent.SetsNoTrapFlag event :=
      fun event mem target after outcome happens port clear =>
        (keeps event mem target after outcome happens port).trans clear
    rcases step_effect present stepped with
      ⟨cleared, state, waited, quiet, process, target, returned, ended, trapFlag⟩
    have presentCleared : cleared.process.threads[index]? = some thread := process ▸ present
    have events : (cleared.singleStepToWait index).events = session.events :=
      (quiet.trans (.singleStepToWait cleared index)).events
    have goesOn : state ≠ .PRS_STOPPED := fun stopped => notAll (ended.mpr stopped)
    have left := nothing.trapFlags setsNone thread.thread untrapped
    rw [trapFlag, if_neg goesOn, trapFlag_internalWait (events ▸ keeps) returned,
      trapFlag_singleStepToWait presentCleared, target, answers] at left
    cases left
  · exact step_loses_nothing distinct present stepped

/-- One thread stands at an enabled breakpoint. -/
def standingTask : Target where
  memory := Function.update (fun _ => 0x90#8) 0x1000#64 int_3
  live := [1]
  thread _ := ⟨.state32 (registersAt 0x1000#32), ⟨.running, 0⟩⟩
  suspendCount := 0
  pidKnown := true

def standsAlone : MDBThread := ⟨1, ⟨.running, 0⟩, registersAt 0x1000#32, default⟩

/-- The wait for the single step ends with a signal that the target cannot be continued with. -/
def beforeInterruption : Session :=
  { attached standingTask [fun target => some (target, .stopped 20 (some 16)),
      fun target => some (target, .stopped SIG_TRAP none)] with
    breakpoints := [⟨0x1000#64, 0x90#8, true, none⟩]
    process := {
      running := true
      is64Bit := false
      threads := [standsAlone]
      uninitialized := fun _ => default } }

/-- The breakpoint is off and the trap flag is set when the loop is over. -/
def steppedOffInterrupted : Session :=
  (beforeInterruption.stepOff 0 (.regular 0)).getD beforeInterruption

theorem checkForBreakpointsAndStep_beforeInterruption :
    beforeInterruption.checkForBreakpointsAndStep = some steppedOffInterrupted := by
  have present : beforeInterruption.process.threads[0]? = some standsAlone := rfl
  have found : beforeInterruption.findEnabled standsAlone.state32.pc = some (.regular 0) := rfl
  have stepped : beforeInterruption.stepOff 0 (.regular 0) = some steppedOffInterrupted := rfl
  have outside : steppedOffInterrupted.process.threads.length ≤ 1 := by decide
  rw [checkForBreakpointsAndStep, stepOffFrom_of_getElem? present]
  simp only [found, stepped, Option.bind_some]
  exact stepOffFrom_of_le outside

def freedInterrupted : Session := steppedOffInterrupted.machResumeThreadsAndTask

theorem resumeToWait_beforeInterruption :
    beforeInterruption.resumeToWait = some freedInterrupted := by
  rw [resumeToWait, checkForBreakpointsAndStep_beforeInterruption]
  rfl

theorem exists_resume_beforeInterruption :
    ∃ after, beforeInterruption.resume = some (true, after) ∧
      after.flagOf (.regular 0) = some false ∧ after.target.trapFlag 1 = true := by
  simp only [resume, resumeToWait_beforeInterruption, Option.bind_eq_bind, Option.bind_some]
  exact ⟨_, rfl, rfl, rfl⟩

theorem exists_step_beforeInterruption :
    ∃ after, beforeInterruption.step 0 = some (true, after) ∧ after.target.trapFlag 1 = true := by
  exact ⟨_, rfl, rfl⟩

theorem setsNone_beforeInterruption :
    ∀ event ∈ beforeInterruption.events, WaitEvent.SetsNoTrapFlag event := by
  simp [beforeInterruption, attached, WaitEvent.SetsNoTrapFlag]

end Session

end RustDbg
