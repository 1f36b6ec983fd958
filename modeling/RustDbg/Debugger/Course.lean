import Mathlib.Logic.Relation
import RustDbg.Debugger.Commands

/-!
# The course of a command

Whatever command is given, the debugger alternates between waits and what it does
between them. What both keep up therefore holds after every command, however many
threads it has stepped off breakpoints on the way.
-/

namespace RustDbg.Session

/-- One move of the debugger: a wait that returns or anything it does between two waits. -/
inductive Move (before after : Session) : Prop where
  | quiet (quiet : Quiet before after)
  | wait (state : MDBProcessRunState)
      (returned : before.internalWait SIG_TRAP = some (state, after))

/-- The debugger gets from one session to the other by waits and what it does between them. -/
def Advances : Session → Session → Prop := Relation.ReflTransGen Move

namespace Advances

variable {first second third : Session}

theorem quiet (quiet : Quiet first second) : Advances first second := .single (.quiet quiet)

theorem wait {state : MDBProcessRunState}
    (returned : first.internalWait SIG_TRAP = some (state, second)) : Advances first second :=
  .single (.wait state returned)

theorem trans (left : Advances first second) (right : Advances second third) :
    Advances first third :=
  Relation.ReflTransGen.trans left right

/-- What waits and all the debugger does between them keep up holds however far it gets. -/
theorem preserves (Invariant : Session → Prop)
    (quiet : ∀ before after, Invariant before → Quiet before after → Invariant after)
    (wait : ∀ before state after, Invariant before →
      before.internalWait SIG_TRAP = some (state, after) → Invariant after)
    (advances : Advances first second) (start : Invariant first) : Invariant second := by
  induction advances with
  | refl => exact start
  | tail _ move ih =>
      cases move with
      | quiet same => exact quiet _ _ ih same
      | wait state returned => exact wait _ state _ ih returned

end Advances

variable {session next : Session} {index : Nat} {answer : Bool}

theorem Quiet.elim_disable (session : Session) (breakpoint : Option BreakpointRef) :
    Quiet session (breakpoint.elim session session.disable) := by
  cases breakpoint with
  | none => exact .refl session
  | some ref => exact .disable session ref

theorem Quiet.elim_enable (session : Session) (breakpoint : Option BreakpointRef) :
    Quiet session (breakpoint.elim session (session.enable · true)) := by
  cases breakpoint with
  | none => exact .refl session
  | some ref => exact .enable session ref true

theorem advances_step (stepped : session.step index = some (answer, next)) :
    Advances session next := by
  simp only [step, Option.bind_eq_bind, Option.bind_eq_some_iff, Prod.exists, Option.pure_def,
    Option.some.injEq, Prod.mk.injEq] at stepped
  rcases stepped with ⟨thread, -, state, waited, returned, -, rfl⟩
  refine (Advances.quiet ((Quiet.elim_disable session _).trans (.singleStepToWait _ index))).trans
    ((Advances.wait returned).trans (.quiet ?_))
  split
  · apply (Quiet.enableSingleStep waited index false).trans
    exact .elim_enable _ _
  · exact .elim_enable waited _

theorem advances_stepOff {breakpoint : BreakpointRef}
    (stepped : session.stepOff index breakpoint = some next) : Advances session next := by
  rcases stepOff_cases stepped with ⟨state, waited, returned, rfl⟩
  refine (Advances.quiet ((Quiet.disable session breakpoint).trans
    (.singleStepToWait _ index))).trans ((Advances.wait returned).trans (.quiet ?_))
  split
  · apply (Quiet.enableSingleStep waited index false).trans
    exact .enable _ breakpoint true
  · exact .refl waited

theorem advances_stepOffFrom (stepped : session.stepOffFrom index = some next) :
    Advances session next := by
  fun_induction stepOffFrom session index with
  | case1 session index inTable none ih => exact ih stepped
  | case2 session index inTable breakpoint found stuck => simp at stepped
  | case3 session index inTable breakpoint found middle steppedOff ih =>
      apply (advances_stepOff steppedOff).trans
      exact ih stepped
  | case4 session index outside =>
      simp only [Option.some.injEq] at stepped
      exact stepped ▸ .quiet (.refl session)

theorem Quiet.stepBackThread (session : Session) (index : Nat) :
    Quiet session (session.stepBackThread index) := by
  simp only [Session.stepBackThread]
  split
  · exact .refl session
  · split
    · exact .refl session
    · exact (Quiet.onBreakpointReached session _ _).trans
        (.updateInstructionPointerAndCommitState _ index (-1))

theorem Quiet.checkForBreakpointsAndStepBack (session : Session) :
    Quiet session session.checkForBreakpointsAndStepBack := by
  simp only [Session.checkForBreakpointsAndStepBack]
  induction List.range session.process.threads.length generalizing session with
  | nil => exact .refl session
  | cons index rest ih => exact (Quiet.stepBackThread session index).trans (ih _)

theorem advances_resumeToWait (resumed : session.resumeToWait = some next) :
    Advances session next := by
  simp only [resumeToWait, Option.map_eq_some_iff] at resumed
  rcases resumed with ⟨stepped, steps, rfl⟩
  apply (advances_stepOffFrom steps).trans
  exact .quiet (.machResumeThreadsAndTask stepped)

/-- `resume` waits once for the target it let run and steps back if that stopped. -/
theorem resume_cases (resumed : session.resume = some (answer, next)) :
    ∃ freed state waited, session.resumeToWait = some freed ∧
      freed.internalWait SIG_TRAP = some (state, waited) ∧
      answer = decide (state = .PRS_STOPPED) ∧
      next = if state = .PRS_STOPPED then waited.checkForBreakpointsAndStepBack else waited := by
  simp only [resume, Option.bind_eq_bind, Option.bind_eq_some_iff, Prod.exists] at resumed
  rcases resumed with ⟨freed, steps, state, waited, returned, result⟩
  refine ⟨freed, state, waited, steps, returned, ?_⟩
  by_cases stopped : state = .PRS_STOPPED <;> simp_all

theorem advances_resume (resumed : session.resume = some (answer, next)) :
    Advances session next := by
  rcases resume_cases resumed with ⟨freed, state, waited, steps, returned, -, rfl⟩
  refine (advances_resumeToWait steps).trans ((Advances.wait returned).trans (.quiet ?_))
  split
  · exact .checkForBreakpointsAndStepBack waited
  · exact .refl waited

theorem Quiet.stepOverToWait (session : Session) (ud : Udis86) (address : Address) :
    Quiet session (session.stepOverToWait ud address) :=
  ((((Quiet.elim_disable session _).trans (.getInstructionLength _ ud address)).trans
    (.createBreakpoint _ _)).trans (.enable _ _ true)).trans (.resumeAllThreadsAndTask _)

theorem advances_stepOver {ud : Udis86}
    (stepped : session.stepOver ud index = some (answer, next)) : Advances session next := by
  simp only [stepOver, Option.bind_eq_bind, Option.bind_eq_some_iff] at stepped
  rcases stepped with ⟨thread, -, rest⟩
  have decoded := Quiet.isCallInstruction session ud thread.state32.pc
  split at rest
  · apply (Advances.quiet decoded).trans
    exact advances_step rest
  · simp only [Option.bind_eq_some_iff, Prod.exists] at rest
    rcases rest with ⟨state, waited, returned, result⟩
    refine (Advances.quiet (decoded.trans (.stepOverToWait _ ud _))).trans
      ((Advances.wait returned).trans (.quiet ?_))
    split at result
    · simp only [Option.bind_eq_some_iff, Option.pure_def, Option.some.injEq, Prod.mk.injEq]
        at result
      rcases result with ⟨deleted, deletion, -, rfl⟩
      apply (Quiet.elim_enable waited _).trans
      exact .deleteTransientBreakpoints _ deletion
    · simp only [Option.pure_def, Option.some.injEq, Prod.mk.injEq] at result
      exact result.2 ▸ .refl waited

theorem advances_perform {ud : Udis86} {command : Command}
    (performed : session.perform ud command = some next) : Advances session next := by
  cases command with
  | step index =>
      simp only [perform, Option.map_eq_some_iff, Prod.exists, exists_eq_right] at performed
      rcases performed with ⟨answer, stepped⟩
      exact advances_step stepped
  | stepOver index =>
      simp only [perform, Option.map_eq_some_iff, Prod.exists, exists_eq_right] at performed
      rcases performed with ⟨answer, stepped⟩
      exact advances_stepOver stepped
  | resume =>
      simp only [perform, Option.map_eq_some_iff, Prod.exists, exists_eq_right] at performed
      rcases performed with ⟨answer, resumed⟩
      exact advances_resume resumed

end RustDbg.Session
