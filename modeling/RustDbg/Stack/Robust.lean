import RustDbg.Library.Execution
import RustDbg.Stack.Walk

/-!
# The walk over any memory

The addresses that the walk follows come from the target and need not decrease, so it
is only the test of how many frames there are that ends its loop. What an iteration
preserves bounds the frames and their sizes, whatever the reads return or fail to.
-/

namespace RustDbg

namespace MDBStack

open StateTransition (eval mem_eval)

/-- The variables of the loop when it starts. -/
def WalkState.start (session : Session) (thread : MDBThread) : WalkState where
  session
  codeAddress := thread.state32.eip.setWidth 64
  frameAddress := thread.state32.ebp.setWidth 64
  frameSize := 128
  frames := []

/-- The stack that the walk leaves, for a thread. -/
structure Robust (thread : MDBThread) (stack : MDBStack) : Prop where
  few : stack.frames.length ≤ 65
  linked : ∀ i frame, stack.frames[i]? = some frame →
    frame.parent = if i + 1 < stack.frames.length then some (i + 1) else none
  small : ∀ frame ∈ stack.frames, frame.size ≤ 256
  absent : stack.frame = none ↔ thread.state32.ebp = 0
  current : thread.state32.ebp ≠ 0 → stack.frame = some 0 ∧ ∃ frame,
    stack.frames[0]? = some frame ∧ frame.address = thread.state32.ebp.setWidth 64 ∧
      frame.codeAddress = thread.state32.eip.setWidth 64

variable {regions : List MDBCodeRegion} {thread : MDBThread} {state next last : WalkState}

/-! ## Termination -/

theorem loopStep_eq_some_iff :
    loopStep regions thread state = some next ↔
      state.frameAddress ≠ 0 ∧ state.frames.length ≤ 64 ∧ next = iterate regions thread state := by
  simp only [loopStep]
  split
  · rename_i left
    simp only [reduceCtorEq, false_iff]
    rintro ⟨nonzero, few, _⟩
    rcases left with null | many
    · exact nonzero null
    · omega
  · rename_i going
    simp only [not_or, Nat.not_lt] at going
    simp only [Option.some.injEq, going, ne_eq, not_false_eq_true, true_and, eq_comm]

theorem loopStep_eq_none_iff :
    loopStep regions thread state = none ↔
      state.frameAddress = 0 ∨ 64 < state.frames.length := by
  simp only [loopStep, ite_eq_left_iff, reduceCtorEq, imp_false, not_not, gt_iff_lt]

/-- How many frames there is still room for. -/
def room (state : WalkState) : Nat := 65 - state.frames.length

theorem loopStep_room (stepped : loopStep regions thread state = some next) :
    room state = room next + 1 := by
  rcases loopStep_eq_some_iff.mp stepped with ⟨_, few, rfl⟩
  simp only [room, iterate_frames, List.length_append, List.length_singleton]
  omega

theorem loopStep_terminates (regions : List MDBCodeRegion) (thread : MDBThread)
    (state : WalkState) : ∃ last, last ∈ eval (loopStep regions thread) state := by
  apply Execution.exists_mem_eval_of_measure room
  intro state next stepped
  have decreases := loopStep_room stepped
  omega

/-! ## The loop and the walk -/

theorem eval_of_loopStep (stepped : loopStep regions thread state = some next) :
    eval (loopStep regions thread) state = eval (loopStep regions thread) next :=
  StateTransition.reaches_eval (.single stepped)

theorem eq_of_mem_eval (ended : last ∈ eval (loopStep regions thread) state)
    (left : loopStep regions thread state = none) : last = state := by
  have here : state ∈ eval (loopStep regions thread) state := mem_eval.mpr ⟨.refl, left⟩
  exact Part.mem_unique ended here

/-- The loop ends with the frames that the walk finds behind those there are already. -/
theorem walk_of_mem_eval (ended : last ∈ eval (loopStep regions thread) state) :
    let walked := walk regions thread (room state) state.session state.codeAddress
      state.frameAddress state.frameSize
    last.frames = state.frames ++ walked.1 ∧ last.session = walked.2 := by
  induction left : room state generalizing state with
  | zero =>
      have many : 64 < state.frames.length := by
        simp only [room] at left
        omega
      rw [eq_of_mem_eval ended (loopStep_eq_none_iff.mpr (Or.inr many))]
      exact ⟨(List.append_nil _).symm, rfl⟩
  | succ more ih =>
      by_cases null : state.frameAddress = 0
      · rw [eq_of_mem_eval ended (loopStep_eq_none_iff.mpr (Or.inl null)), walk_of_null _ _ _ null]
        exact ⟨(List.append_nil _).symm, rfl⟩
      · have few : state.frames.length ≤ 64 := by
          simp only [room] at left
          omega
        have stepped : loopStep regions thread state = some (iterate regions thread state) :=
          loopStep_eq_some_iff.mpr ⟨null, few, rfl⟩
        have decreases := loopStep_room stepped
        simp only [eval_of_loopStep stepped] at ended
        rcases ih ended (by omega) with ⟨frames, session⟩
        rw [walk_of_ne_null null]
        simp only [iterate_frames, List.append_assoc] at frames
        exact ⟨frames, session⟩

/-! ## What an iteration preserves -/

/-- The loop has pushed small frames, from the registers of the thread on. -/
structure Walked (thread : MDBThread) (state : WalkState) : Prop where
  few : state.frames.length ≤ 65
  next : state.frameSize ≤ 256
  pushed : ∀ frame ∈ state.frames, frame.size ≤ 256 ∧ frame.address ≠ 0 ∧ frame.parent = none
  -- The first frame, or where there is none the variables of the loop.
  first : (state.frames.head?.map fun frame => (frame.address, frame.codeAddress)).getD
    (state.frameAddress, state.codeAddress) =
      (thread.state32.ebp.setWidth 64, thread.state32.eip.setWidth 64)

theorem walked_start (session : Session) (thread : MDBThread) :
    Walked thread (.start session thread) := by
  refine ⟨Nat.zero_le _, Nat.le_of_ble_eq_true rfl, ?_, rfl⟩
  intro frame present
  cases present

theorem Walked.loopStep (walked : Walked thread state)
    (stepped : loopStep regions thread state = some next) : Walked thread next := by
  rcases loopStep_eq_some_iff.mp stepped with ⟨nonzero, few, rfl⟩
  refine ⟨?_, iterate_frameSize_le, ?_, ?_⟩
  · simp only [iterate_frames, List.length_append, List.length_singleton]
    omega
  · intro frame present
    simp only [iterate_frames, List.mem_append, List.mem_singleton] at present
    rcases present with earlier | rfl
    · exact walked.pushed frame earlier
    · exact ⟨walked.next, nonzero, rfl⟩
  · have first := walked.first
    simp only [iterate_frames]
    cases pushed : state.frames with
    | nil => simpa [pushed] using first
    | cons frame frames => simpa [pushed] using first

theorem Walked.of_mem_eval (walked : Walked thread state)
    (ended : last ∈ eval (MDBStack.loopStep regions thread) state) : Walked thread last :=
  Execution.reaches_invariant (Walked thread) (fun _ _ walked stepped => walked.loopStep stepped)
    walked (mem_eval.mp ended).1

/-! ## The stack -/

theorem getElem?_link (frames : List MDBStackFrame) (i : Nat) :
    (link frames)[i]? = frames[i]?.map fun frame =>
      { frame with parent := if i < frames.length - 1 then some (i + 1) else frame.parent } := by
  simp [link]

theorem mem_link {frames : List MDBStackFrame} {frame : MDBStackFrame}
    (present : frame ∈ link frames) : ∃ walked ∈ frames, frame.size = walked.size := by
  rcases List.getElem?_of_mem present with ⟨i, found⟩
  simp only [getElem?_link, Option.map_eq_some_iff] at found
  rcases found with ⟨walked, found, rfl⟩
  exact ⟨walked, List.mem_of_getElem? found, rfl⟩

theorem length_link (frames : List MDBStackFrame) : (link frames).length = frames.length := by
  simp [link]

theorem Walked.frames_eq_nil_iff (walked : Walked thread last)
    (left : MDBStack.loopStep regions thread last = none) :
    last.frames = [] ↔ thread.state32.ebp = 0 := by
  have first := walked.first
  cases pushed : last.frames with
  | nil =>
      simp only [pushed, List.head?_nil, Option.map_none, Option.getD_none, Prod.mk.injEq] at first
      rcases loopStep_eq_none_iff.mp left with null | many
      · simp only [first.1] at null
        apply iff_of_true rfl
        exact setWidth_eq_zero_iff.mp null
      · simp only [pushed, List.length_nil] at many
        omega
  | cons frame frames =>
      simp only [pushed, List.head?_cons, Option.map_some, Option.getD_some,
        Prod.mk.injEq] at first
      have nonzero := (walked.pushed frame (by simp [pushed])).2.1
      simp only [first.1] at nonzero
      apply iff_of_false (List.cons_ne_nil frame frames)
      exact nonzero ∘ setWidth_eq_zero_iff.mpr

/-- The frames that the loop has pushed when it is left make a robust stack. -/
theorem Walked.robust (walked : Walked thread last)
    (left : MDBStack.loopStep regions thread last = none) :
    Robust thread ⟨if last.frames.length > 0 then some 0 else none, link last.frames⟩ := by
  have empty := walked.frames_eq_nil_iff left
  refine ⟨?_, ?_, ?_, ?_, ?_⟩
  · simpa only [length_link] using walked.few
  · intro i frame found
    simp only [getElem?_link, Option.map_eq_some_iff] at found
    rcases found with ⟨pushed, found, rfl⟩
    have unlinked := (walked.pushed pushed (List.mem_of_getElem? found)).2.2
    simp only [length_link, unlinked]
    congr 1
    simp only [eq_iff_iff]
    omega
  · intro frame present
    rcases mem_link present with ⟨pushed, present, size⟩
    rw [size]
    exact (walked.pushed pushed present).1
  · simp only [← empty, ← List.length_eq_zero_iff, ite_eq_right_iff, reduceCtorEq, imp_false]
    omega
  · intro nonzero
    have first := walked.first
    rcases List.exists_cons_of_ne_nil (nonzero ∘ empty.mp) with ⟨frame, frames, pushed⟩
    simp only [pushed, List.head?_cons, Option.map_some, Option.getD_some,
      Prod.mk.injEq] at first
    simp only [getElem?_link, pushed, List.length_cons, List.getElem?_cons_zero, Option.map_some]
    exact ⟨if_pos (Nat.zero_lt_succ _), _, rfl, first⟩

/--
Whatever the memory holds and whichever reads fail, the walk comes to an end and
leaves a robust stack.
-/
theorem updateState_robust (regions : List MDBCodeRegion) (session : Session)
    (thread : MDBThread) :
    ∃ last, last ∈ eval (loopStep regions thread) (.start session thread) ∧
      updateState regions session thread =
        (⟨if last.frames.length > 0 then some 0 else none, link last.frames⟩, last.session) ∧
      Robust thread (updateState regions session thread).1 := by
  rcases loopStep_terminates regions thread (.start session thread) with ⟨last, ended⟩
  rcases walk_of_mem_eval ended with ⟨frames, finished⟩
  have walked : walk regions thread 65 session (thread.state32.eip.setWidth 64)
      (thread.state32.ebp.setWidth 64) 128 = (last.frames, last.session) :=
    Prod.ext frames.symm finished.symm
  have result : updateState regions session thread =
      (⟨if last.frames.length > 0 then some 0 else none, link last.frames⟩, last.session) := by
    simp only [updateState, walked]
  rw [result]
  apply Exists.intro last
  refine ⟨ended, rfl, ?_⟩
  exact ((walked_start session thread).of_mem_eval ended).robust (mem_eval.mp ended).2

end MDBStack

end RustDbg
