import RustDbg.Debugger.StepOver

/-!
# What stepping over a call leaves behind

`MDBDebugger::stepOver` adds its breakpoint to the list of breakpoints and afterwards
clears the list of transient ones, to which nothing is ever added. So each call of it that
comes back to a stop leaves one more breakpoint, enabled and patched into the target.
-/

namespace RustDbg.Session

variable {session start stopped after : Session} {ud : Udis86} {index count : Nat}
  {thread : MDBThread} {ref : BreakpointRef} {breakpoint : MDBBreakpoint} {flag : Bool}

/-- The addresses of breakpoints and whether they are enabled. -/
def flagged (breakpoints : List MDBBreakpoint) : List (Address × Bool) :=
  breakpoints.map fun breakpoint => (breakpoint.address, breakpoint.enabled)

/-! ## Switching one breakpoint -/

/-- A switch sets the flag of one breakpoint, whatever comes of its memory accesses. -/
theorem flagged_enable_regular (present : session.breakpoints[index]? = some breakpoint) :
    flagged (session.enable (.regular index) flag).breakpoints =
      (flagged session.breakpoints).set index (breakpoint.address, flag) := by
  have pointed : session.breakpointState.breakpoints[index]? = some breakpoint := present
  have bound := (List.getElem?_eq_some_iff.mp present).1
  change flagged ((session.breakpointState.enable session.nextAccess.1 _ flag).breakpoints) = _
  by_cases same : breakpoint.enabled = flag
  · have unchanged : session.breakpointState.enable session.nextAccess.1 (.regular index) flag =
        session.breakpointState := BreakpointState.enable_of_eq pointed same
    rw [unchanged, ← same]
    rcases List.getElem?_eq_some_iff.mp present with ⟨_, rfl⟩
    apply List.ext_getElem?
    intro position
    by_cases here : position = index
    · subst here
      simp [flagged, breakpointState, bound]
    · simp [flagged, breakpointState, Ne.symm here]
  · cases flag with
    | true =>
        rw [BreakpointState.enable_true_of_disabled pointed (by simpa using same)]
        simp only [BreakpointState.switchedOn, flagged, List.map_set]
        rfl
    | false =>
        rw [BreakpointState.enable_false_of_enabled pointed (by simpa using same)]
        simp only [BreakpointState.switchedOff, flagged, List.map_set]
        rfl

theorem breakpoints_enable_transient :
    (session.enable (.transient index) flag).breakpoints = session.breakpoints := by
  change (session.breakpointState.enable session.nextAccess.1 _ flag).breakpoints = _
  simp only [BreakpointState.enable]
  split
  · rfl
  · split
    · split <;> rfl
    · split <;> rfl

/-- Switching an enabled breakpoint off and on again leaves the flags as they were. -/
theorem flagged_enable_of_disabled
    (pointed : session.breakpointState.deref ref = some breakpoint)
    (enabled : breakpoint.enabled = true) {added : List (Address × Bool)}
    (stopped_eq : flagged stopped.breakpoints =
      flagged (session.disable ref).breakpoints ++ added) :
    flagged (stopped.enable ref true).breakpoints = flagged session.breakpoints ++ added := by
  cases ref with
  | transient index =>
      simp only [disable, breakpoints_enable_transient] at stopped_eq ⊢
      exact stopped_eq
  | regular index =>
      have present : session.breakpoints[index]? = some breakpoint := pointed
      have bound : index < (flagged session.breakpoints).length := by
        simpa [flagged] using (List.getElem?_eq_some_iff.mp present).1
      simp only [disable, flagged_enable_regular present] at stopped_eq
      have entry : (flagged stopped.breakpoints)[index]? = some (breakpoint.address, false) := by
        simp only [stopped_eq]
        rw [List.getElem?_append_left (by simpa using bound), List.getElem?_set_self bound]
      simp only [flagged, List.getElem?_map, Option.map_eq_some_iff, Prod.mk.injEq] at entry
      rcases entry with ⟨here, hereNow, address, -⟩
      rw [flagged_enable_regular hereNow, stopped_eq, address,
        List.set_append_left _ _ (by simpa using bound), List.set_set]
      have same : (flagged session.breakpoints)[index] = (breakpoint.address, true) := by
        rcases List.getElem?_eq_some_iff.mp present with ⟨_, rfl⟩
        simp only [flagged, List.getElem_map, enabled]
      rw [← same, List.set_getElem_self]

/-! ## One call -/

/-- The breakpoint a call is at is switched off before the target is let run. -/
def cleared (session : Session) (ud : Udis86) (thread : MDBThread) : Session :=
  let session := (session.isCallInstruction ud thread.state32.pc).2
  (session.findEnabled thread.state32.pc).elim session session.disable

/-- The address of the breakpoint behind the call. -/
def behindCall (session : Session) (ud : Udis86) (thread : MDBThread) : Address :=
  thread.state32.pc + BitVec.ofNat 64
    ((session.isCallInstruction ud thread.state32.pc).2.callLength ud thread.state32.pc)

/-- The breakpoint behind the call is the last one of the list, and it has been switched on. -/
theorem breakpointState_steppedOver (session : Session) (ud : Udis86) (thread : MDBThread) :
    ∃ patch outcome, (session.accesses = [] → outcome = .success) ∧
      (session.steppedOver ud thread).breakpointState =
        ({ (session.cleared ud thread).breakpointState with
            breakpoints := (session.cleared ud thread).breakpoints ++
              [⟨session.behindCall ud thread, patch, false, none⟩] } : BreakpointState).switchedOn
          outcome (session.cleared ud thread).breakpoints.length
          ⟨session.behindCall ud thread, patch, false, none⟩ := by
  have succeed (accesses : session.accesses = []) : (session.cleared ud thread).accesses = [] := by
    simp only [cleared]
    have decoded : (session.isCallInstruction ud thread.state32.pc).2.accesses = [] := by
      change session.accesses.tail = []
      simp [accesses]
    cases (session.isCallInstruction ud thread.state32.pc).2.findEnabled thread.state32.pc with
    | none => exact decoded
    | some ref => exact (breakpointState_enable decoded ref false).2
  simp only [steppedOver, stepOverToWait, breakpointState_resumeAllThreadsAndTask]
  change ∃ patch outcome, _ ∧
    ((((session.cleared ud thread).getInstructionLength ud thread.state32.pc).2.createBreakpoint
      (session.behindCall ud thread)).2.enable
        (.regular (session.cleared ud thread).breakpoints.length) true).breakpointState = _
  generalize session.behindCall ud thread = address
  generalize session.cleared ud thread = cleared at succeed ⊢
  refine ⟨cleared.unusedPatch cleared.breakpoints.length, cleared.accesses.tail.headD .success,
    ?_, ?_⟩
  · intro accesses
    simp [succeed accesses]
  · apply BreakpointState.enable_true_of_disabled _ rfl
    exact List.getElem?_concat_length

theorem flagged_steppedOver (session : Session) (ud : Udis86) (thread : MDBThread) :
    flagged (session.steppedOver ud thread).breakpoints =
      flagged (session.cleared ud thread).breakpoints ++
        [(session.behindCall ud thread, true)] := by
  rcases breakpointState_steppedOver session ud thread with ⟨patch, outcome, -, state⟩
  have breakpoints := congrArg (·.breakpoints) state
  change (session.steppedOver ud thread).breakpoints = _ at breakpoints
  simp [breakpoints, BreakpointState.switchedOn, flagged]

/-- With its Mach calls succeeding `stepOver` replaces the byte behind the call. -/
theorem memory_steppedOver (succeed : session.accesses = []) (ud : Udis86) (thread : MDBThread) :
    (session.steppedOver ud thread).target.memory (session.behindCall ud thread) = int_3 := by
  rcases breakpointState_steppedOver session ud thread with ⟨patch, outcome, success, state⟩
  have memory := congrArg (·.memory) state
  change (session.steppedOver ud thread).target.memory = _ at memory
  simp [memory, BreakpointState.switchedOn, success succeed]

/-! ## Any number of calls -/

/-- `stepOver` is called for a thread at a call, its wait ends with a stop and it returns. -/
structure StopsOver (ud : Udis86) (session : Session) (thread : MDBThread)
    (stopped after : Session) : Prop where
  call : (session.isCallInstruction ud thread.state32.pc).1 = true
  waited : (session.steppedOver ud thread).internalWait SIG_TRAP = some (.PRS_STOPPED, stopped)
  stepped : ∃ index, session.process.threads[index]? = some thread ∧
    session.stepOver ud index = some (true, after)

/-- After the stop the breakpoint at the call is switched on, and the transient list is cleared. -/
theorem StopsOver.after_eq (stops : StopsOver ud session thread stopped after) :
    after = { ((session.isCallInstruction ud thread.state32.pc).2.findEnabled
        thread.state32.pc).elim stopped (stopped.enable · true) with
      transientBreakpoints := [] } := by
  rcases stops with ⟨call, waited, index, present, stepped⟩
  simp only [steppedOver] at waited
  simp only [stepOver, present, Option.bind_eq_bind, Option.bind_some, call, Bool.true_eq_false,
    if_false, waited, if_true, Option.bind_eq_some_iff, Option.pure_def, Option.some.injEq,
    Prod.mk.injEq, true_and] at stepped
  rcases stepped with ⟨deleted, deletion, rfl⟩
  simp only [deleteTransientBreakpoints, Option.ite_none_left_eq_some, Option.some.injEq]
    at deletion
  exact deletion.2.symm

theorem StopsOver.flagged_breakpoints (stops : StopsOver ud session thread stopped after) :
    flagged after.breakpoints =
      flagged session.breakpoints ++ [(session.behindCall ud thread, true)] := by
  have same := SameSettings.internalWait stops.waited
  have added : flagged stopped.breakpoints =
      flagged (session.cleared ud thread).breakpoints ++
        [(session.behindCall ud thread, true)] := by
    rw [same.breakpoints, flagged_steppedOver]
  rw [stops.after_eq]
  simp only [cleared] at added
  generalize decoded_eq : (session.isCallInstruction ud thread.state32.pc).2 = decoded at added ⊢
  have kept : decoded.breakpoints = session.breakpoints := by
    rw [← decoded_eq]
    rfl
  cases found : decoded.findEnabled thread.state32.pc with
  | none =>
      simp only [found, Option.elim_none, kept] at added
      exact added
  | some ref =>
      simp only [found, Option.elim_some] at added
      rcases deref_of_findEnabled found with ⟨breakpoint, pointed, enabled, -⟩
      rw [← kept]
      exact flagged_enable_of_disabled pointed enabled added

/-- Switching a breakpoint on takes away no patch. -/
theorem memory_enable_true {address : Address}
    (patched : session.target.memory address = int_3) :
    (session.enable ref true).target.memory address = int_3 := by
  have patchedState : session.breakpointState.memory address = int_3 := patched
  change (session.breakpointState.enable session.nextAccess.1 ref true).memory address = int_3
  simp only [BreakpointState.enable, BreakpointState.write_byte]
  split
  · exact patchedState
  · rename_i breakpoint pointed
    have written (memory : Memory) (here : memory address = int_3) (condition : Bool) :
        (if condition = true then Function.update memory breakpoint.address int_3
          else memory) address = int_3 := by
      split
      · simp only [Function.update_apply]
        split
        · rfl
        · exact here
      · exact here
    split
    · split
      · cases ref <;> exact written _ patchedState _
      · cases ref <;> exact patchedState
    · simpa using patchedState

/-- Wherever the target has not written behind the call, the patch is left there. -/
theorem StopsOver.memory_behindCall (stops : StopsOver ud session thread stopped after)
    (succeed : session.accesses = [])
    (unwritten : stopped.target.memory (session.behindCall ud thread) =
      (session.steppedOver ud thread).target.memory (session.behindCall ud thread)) :
    after.target.memory (session.behindCall ud thread) = int_3 := by
  have patched := unwritten.trans (memory_steppedOver succeed ud thread)
  rw [stops.after_eq]
  cases (session.isCallInstruction ud thread.state32.pc).2.findEnabled thread.state32.pc with
  | none => exact patched
  | some ref => exact memory_enable_true patched

/-- `stepOver` has been called some number of times, one call after the other. -/
inductive StepsOver (ud : Udis86) (start : Session) : Nat → Session → Prop where
  | none : StepsOver ud start 0 start
  | step {count : Nat} {session stopped after : Session} {thread : MDBThread}
      (earlier : StepsOver ud start count session)
      (stops : StopsOver ud session thread stopped after) : StepsOver ud start (count + 1) after

theorem StepsOver.flagged_breakpoints (run : StepsOver ud start count session) :
    ∃ left, left.length = count ∧ (∀ entry ∈ left, entry.2 = true) ∧
      flagged session.breakpoints = flagged start.breakpoints ++ left := by
  induction run with
  | none => exact ⟨[], rfl, by simp, by simp⟩
  | @step count session stopped after thread earlier stops ih =>
      rcases ih with ⟨left, length, enabled, before⟩
      refine ⟨left ++ [(session.behindCall ud thread, true)], by simp [length], ?_, ?_⟩
      · intro entry mem
        rcases List.mem_append.mp mem with earlier | last
        · exact enabled entry earlier
        · simp [List.mem_singleton.mp last]
      · rw [stops.flagged_breakpoints, before, List.append_assoc]

/--
The breakpoint lists hold the same breakpoints with the same flags as before the call, and so
does raw memory the same bytes, but for those the target has written itself.
-/
structure LeavesNothing (before freed stopped after : Session) : Prop where
  breakpoints : flagged after.breakpoints = flagged before.breakpoints
  transientBreakpoints :
    flagged after.transientBreakpoints = flagged before.transientBreakpoints
  memory : ∀ address, stopped.target.memory address = freed.target.memory address →
    after.target.memory address = before.target.memory address

/--
After any number of calls of `stepOver` that came back to a stop there are as many more
breakpoints, all enabled, and the last of the calls has left one of them patched into the
target.
-/
theorem stepOver_leaves_breakpoint (run : StepsOver ud start count session)
    (stops : StopsOver ud session thread stopped after) (succeed : session.accesses = []) :
    ¬LeavesNothing session (session.steppedOver ud thread) stopped after ∧
      (∃ left, left.length = count + 1 ∧ (∀ entry ∈ left, entry.2 = true) ∧
        flagged after.breakpoints = flagged start.breakpoints ++ left) ∧
      (stopped.target.memory (session.behindCall ud thread) =
          (session.steppedOver ud thread).target.memory (session.behindCall ud thread) →
        after.target.memory (session.behindCall ud thread) = int_3) := by
  refine ⟨?_, (run.step stops).flagged_breakpoints, stops.memory_behindCall succeed⟩
  intro nothing
  have longer := congrArg List.length (stops.flagged_breakpoints.symm.trans nothing.breakpoints)
  simp at longer

theorem stopsOver_atCall : ∃ after, StopsOver callDecoder atCall callingThread stoppedAfterCall
    after := by
  exact ⟨_, rfl, internalWait_freedAtCall, 0, rfl, rfl⟩

theorem stepOver_leaves_breakpoint_atCall :
    ∃ after, StopsOver callDecoder atCall callingThread stoppedAfterCall after ∧
      ¬LeavesNothing atCall freedAtCall stoppedAfterCall after ∧
      after.target.memory 0x1005#64 = int_3 := by
  rcases stopsOver_atCall with ⟨after, stops⟩
  have left := stepOver_leaves_breakpoint .none stops rfl
  exact ⟨after, stops, left.1, left.2.2 rfl⟩

/-- Before the call no breakpoint was there, and after it there is one at `0x1005`. -/
theorem stepOver_leaves_0x1005 :
    ∃ after, StopsOver callDecoder atCall callingThread stoppedAfterCall after ∧
      atCall.breakpoints = [] ∧ flagged after.breakpoints = [(0x1005#64, true)] ∧
      stoppedAfterCall.target.memory 0x1005#64 = freedAtCall.target.memory 0x1005#64 ∧
      atCall.target.memory 0x1005#64 = 0x90#8 ∧ after.target.memory 0x1005#64 = 0xCC#8 ∧
      ¬LeavesNothing atCall freedAtCall stoppedAfterCall after := by
  rcases stopsOver_atCall with ⟨after, stops⟩
  have added : flagged after.breakpoints = [(0x1005#64, true)] := stops.flagged_breakpoints
  have patched : after.target.memory 0x1005#64 = 0xCC#8 := stops.memory_behindCall rfl rfl
  refine ⟨after, stops, rfl, added, rfl, by decide, patched, ?_⟩
  intro nothing
  have unchanged := nothing.breakpoints
  simp only [added] at unchanged
  cases unchanged

end RustDbg.Session
