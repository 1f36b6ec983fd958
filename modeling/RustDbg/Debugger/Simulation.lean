import RustDbg.Debugger.Inspection
import RustDbg.Debugger.Interrupted
import RustDbg.Debugger.Transparency
import RustDbg.Library.Simulation

/-!
# Commands as steps of the program

Every command has a meaning for the program on its own: `step` is one instruction, `stepOver` is
one instruction unless that is a call, and `resume` is a run to the next breakpoint. A debugger
that is given these commands in any order stands where the program would by their meanings, with
its breakpoints in place, until the program ends.
-/

namespace RustDbg

open Execution StateTransition

/-- What a command that steps over no call makes of a program. -/
inductive Machine.Performs (machine : Machine) (ud : Udis86) (armed : List Address) :
    ProgramState → Command → ProgramState → Prop where
  | step {state next : ProgramState} (executed : machine.execute state = some next) :
      Performs machine ud armed state (.step 0) next
  | stepOver {state next : ProgramState}
      (noCall : (ud (window state.memory state.pc 32)).mnemonic ≠ .UD_Icall)
      (executed : machine.execute state = some next) :
      Performs machine ud armed state (.stepOver 0) next
  | resume {state final : ProgramState}
      (run : StopsAfter machine.execute (·.pc ∈ armed) state final) :
      Performs machine ud armed state .resume final

theorem Machine.Performs.reaches {machine : Machine} {ud : Udis86} {armed : List Address}
    {state next : ProgramState} {command : Command}
    (performs : machine.Performs ud armed state command next) :
    Reaches machine.execute state next := by
  cases performs with
  | step executed => exact .single executed
  | stepOver noCall executed => exact .single executed
  | resume run => exact run.reaches

namespace Session

variable {machine : Machine} {port : ThreadPort} {armed : List Address} {session after : Session}
  {start state : ProgramState} {ud : Udis86} {answer : Bool}

/-- The instruction to be stepped over is not taken for a call. -/
def StepsOverNoCall (ud : Udis86) (session : Session) (command : Command) : Prop :=
  ∀ index thread, command = .stepOver index → session.process.threads[index]? = some thread →
    (session.isCallInstruction ud thread.state32.pc).1 = false

theorem Follows.nextAccess (follows : Follows port armed session state) :
    Follows port armed session.nextAccess.2 state where
  sole := ⟨follows.sole.live, follows.sole.current, follows.sole.cached, follows.sole.is64Bit,
    follows.sole.pidKnown⟩
  placed := follows.placed
  clear := follows.clear
  accesses := congrArg List.tail follows.accesses

/-- The debugger decodes the program as it is without breakpoints. -/
theorem Follows.decodeAt_eq (follows : Follows port armed session state) (ud : Udis86)
    (address : Address) :
    (session.decodeAt ud address).1 = ud (window state.memory address 32) := by
  have hidden := follows.placed.steady.hidden
  have readOk := readOk_nextAccess follows.accesses
  have original : Overlay.overlay (session.underlying address)
      (BreakpointState.sites session.breakpoints) = state.memory := by
    funext other
    by_cases enabled : session.breakpointState.EnabledAt other
    · exact overlay_of_enabledAt hidden enabled
    · have absent : other ∉ armed := fun mem => enabled ((follows.placed.enabledAt other).mp mem)
      rw [overlay_of_not_enabledAt hidden enabled, underlying, if_pos readOk, follows.memory_eq]
      exact if_neg absent
  rw [Session.decodeAt_eq, original]

/-- The only thread in the table is where the program is. -/
theorem Follows.thread_eq (follows : Follows port armed session state) {index : Nat}
    {thread : MDBThread} (present : session.process.threads[index]? = some thread) :
    index = 0 ∧ thread.state32 = state.registers := by
  rcases follows.sole.cached with ⟨only, table, -, registers_eq⟩
  rw [table] at present
  rcases List.getElem?_eq_some_iff.mp present with ⟨bound, rfl⟩
  obtain rfl : index = 0 := Nat.lt_one_iff.mp bound
  exact ⟨rfl, registers_eq⟩

theorem Follows.pc_eq (follows : Follows port armed session state) {index : Nat}
    {thread : MDBThread} (present : session.process.threads[index]? = some thread) :
    thread.state32.pc = state.pc :=
  congrArg MDBThreadState32.pc (follows.thread_eq present).2

/-! ## A single step -/

/-- A thread that stands at no breakpoint executes one instruction. -/
theorem Follows.singleStep (follows : Follows port armed session state)
    (program : machine.Debuggable armed start) (reaches : Reaches machine.execute start state)
    (driven : Driven machine port session) (unpatched : state.pc ∉ armed)
    {waitState : MDBProcessRunState} {waited : Session}
    (returned : (session.singleStepToWait 0).internalWait SIG_TRAP = some (waitState, waited)) :
    (waitState = .PRS_STOPPED ∧ ∃ next, machine.execute state = some next ∧
        Follows port armed (waited.enableSingleStep 0 false) next ∧
        Driven machine port (waited.enableSingleStep 0 false)) ∨
      (waitState ≠ .PRS_STOPPED ∧ Ended machine port waited) := by
  rcases follows.sole.singleStepToWait with ⟨flagged, tables⟩
  have placed : BreakpointState.Placed armed state.memory
      (session.singleStepToWait 0).breakpointState := by
    rw [tables.breakpointState]
    exact follows.placed
  have settings := SameSettings.internalWait returned
  rcases flagged.wait (driven.quiet (.singleStepToWait session 0)) returned with
    ⟨drivenLater, found⟩
  cases found with
  | ended gone => exact Or.inr ⟨by decide, gone, drivenLater⟩
  | stopped stops sole memory =>
      rcases stops with ⟨last, run, paused⟩
      rw [patched_eq placed] at run
      rcases program.singleStep reaches follows.clear (fun _ mem => mem) unpatched run paused with
        ⟨next, executed, rfl⟩
      have kept := program.keeps reaches follows.clear executed
      have placedNext : BreakpointState.Placed armed next.memory waited.breakpointState :=
        placed.replace kept.2 settings.breakpoints settings.transientBreakpoints memory
      rcases sole.enableSingleStep false with ⟨unflagged, tablesNext⟩
      simp only [ProgramState.patched, MDBThreadState32.withTrapFlag_withTrapFlag,
        MDBThreadState32.withTrapFlag_eq_self kept.1] at unflagged
      refine Or.inl ⟨rfl, next, executed, ⟨unflagged, ?_, kept.1, ?_⟩, ?_⟩
      · rw [tablesNext.breakpointState]
        exact placedNext
      · apply tablesNext.accesses.trans
        apply settings.accesses.trans
        exact tables.accesses.trans follows.accesses
      · exact drivenLater.quiet (.enableSingleStep waited 0 false)

/-- A step executes one instruction, whether the thread stands at a breakpoint or not. -/
theorem Follows.step (follows : Follows port armed session state)
    (program : machine.Debuggable armed start) (reaches : Reaches machine.execute start state)
    (driven : Driven machine port session) (stepped : session.step 0 = some (answer, after)) :
    (∃ next, machine.execute state = some next ∧ Follows port armed after next ∧
        Driven machine port after) ∨ Ended machine port after := by
  rcases step_cases stepped with ⟨thread, waitState, waited, present, returned, after_eq⟩
  rw [follows.pc_eq present] at returned after_eq
  rcases findEnabled_cases follows.placed state.pc with
    ⟨found, absent⟩ | ⟨index, breakpoint, found, mem, presentBreakpoint, enabled, here⟩
  · simp only [found, Option.elim_none] at returned after_eq
    rcases follows.singleStep program reaches driven absent returned with
      ⟨rfl, next, executed, followsNext, drivenNext⟩ | ⟨notStopped, ended⟩
    · left
      rw [after_eq, if_pos rfl]
      exact ⟨next, executed, followsNext, drivenNext⟩
    · right
      rw [after_eq, if_neg notStopped]
      exact ended
  · simp only [found, Option.elim_some] at returned after_eq
    have quiet : Quiet session ((session.disable (.regular index)).singleStepToWait 0) :=
      (Quiet.disable session _).trans (.singleStepToWait _ 0)
    rcases (follows.steppingOff presentBreakpoint enabled).wait program reaches follows.clear here
      (driven.quiet quiet) returned with ⟨drivenLater, found⟩
    rcases found with ⟨rfl, next, executed, stepping⟩ | ⟨rfl, ended⟩
    · left
      rw [after_eq, if_pos rfl]
      have clear := (program.keeps reaches follows.clear executed).1
      refine ⟨next, executed, stepping.follows clear (here ▸ mem), ?_⟩
      apply drivenLater.quiet
      exact (Quiet.enableSingleStep waited 0 false).trans (.enable _ _ true)
    · right
      rw [after_eq, if_neg (by decide)]
      exact ended.quiet (.enable waited _ true)

/-! ## Commands -/

/-- Each command does to the target what it means for the program, or finds that it has ended. -/
theorem Follows.perform {command : Command} (follows : Follows port armed session state)
    (program : machine.Debuggable armed start) (reaches : Reaches machine.execute start state)
    (driven : Driven machine port session) (noCall : StepsOverNoCall ud session command)
    (performed : session.perform ud command = some after) :
    (∃ next, machine.Performs ud armed state command next ∧ Follows port armed after next ∧
        Driven machine port after) ∨ Ended machine port after := by
  cases command with
  | step index =>
      rcases Option.map_eq_some_iff.mp performed with ⟨⟨answer, _⟩, stepped, rfl⟩
      rcases step_cases stepped with ⟨thread, -, -, present, -, -⟩
      obtain rfl := (follows.thread_eq present).1
      rcases follows.step program reaches driven stepped with ⟨next, executed, later⟩ | ended
      · exact Or.inl ⟨next, .step executed, later⟩
      · exact Or.inr ended
  | resume =>
      rcases Option.map_eq_some_iff.mp performed with ⟨⟨answer, _⟩, resumed, rfl⟩
      rcases follows.resume program reaches driven resumed with
        ⟨-, final, run, later⟩ | ⟨-, ended⟩
      · exact Or.inl ⟨final, .resume run, later⟩
      · exact Or.inr ended
  | stepOver index =>
      rcases Option.map_eq_some_iff.mp performed with ⟨⟨answer, _⟩, stepped, rfl⟩
      simp only [Session.stepOver, Option.bind_eq_bind, Option.bind_eq_some_iff] at stepped
      rcases stepped with ⟨thread, present, stepped⟩
      have other := noCall index thread rfl present
      obtain rfl := (follows.thread_eq present).1
      rw [if_pos other] at stepped
      have decoded : (ud (window state.memory state.pc 32)).mnemonic ≠ .UD_Icall := by
        intro call
        rw [follows.pc_eq present] at other
        simp only [isCallInstruction] at other
        rw [follows.decodeAt_eq] at other
        simp [call] at other
      have followsDecoded :
          Follows port armed (session.isCallInstruction ud thread.state32.pc).2 state :=
        follows.nextAccess
      have drivenDecoded := driven.quiet (.isCallInstruction session ud thread.state32.pc)
      rcases followsDecoded.step program reaches drivenDecoded stepped with
        ⟨next, executed, later⟩ | ended
      · exact Or.inl ⟨next, .stepOver decoded executed, later⟩
      · exact Or.inr ended

/-- The session stands where the program has come to, and its waits will report that. -/
structure Tracks (machine : Machine) (port : ThreadPort) (armed : List Address)
    (start : ProgramState) (session : Session) (state : ProgramState) : Prop where
  follows : Follows port armed session state
  driven : Driven machine port session
  reaches : Reaches machine.execute start state

theorem simulates (program : machine.Debuggable armed start) :
    Transition.Simulates (Session.perform ud) (StepsOverNoCall ud) (machine.Performs ud armed)
      (Tracks machine port armed start) (Ended machine port) where
  kept session state command next tracks noCall performed := by
    rcases tracks.follows.perform program tracks.reaches tracks.driven noCall performed with
      ⟨after, performs, follows, driven⟩ | ended
    · exact Or.inl ⟨after, performs, follows, driven, tracks.reaches.trans performs.reaches⟩
    · exact Or.inr ended
  stays _ _ _ ended performed := ended.advances (advances_perform performed)

/--
In a run of any commands that step over no call, the debugger takes a program that cannot notice
it where the commands would take the program on its own, one after the other, and stands there
with all its breakpoints in place, unless the program has ended.
-/
theorem performs_of_run {commands : List Command} (follows : Follows port armed session start)
    (program : machine.Debuggable armed start) (driven : Driven machine port session)
    (noCalls : Transition.StepsSatisfy (Session.perform ud) (StepsOverNoCall ud) session commands)
    (reached : Transition.run (Session.perform ud) session commands = some after) :
    (∃ final, Traversal.Through (machine.Performs ud armed) start commands final ∧
        Follows port armed after final) ∨ Ended machine port after := by
  rcases (simulates program).run ⟨follows, driven, .refl⟩ noCalls reached with
    ⟨final, path, tracks⟩ | ended
  · exact Or.inl ⟨final, path, tracks.follows⟩
  · exact Or.inr ended

/-- The loop is run once round to its breakpoint, stepped off it and stepped back to it. -/
theorem performs_of_run_loop :
    ∃ after, Transition.run (Session.perform fun _ => ⟨1, .other 0⟩) loopStopped
        [.resume, .step 0, .stepOver 0] = some after ∧
      ((∃ final, Traversal.Through (nopAndJump.Performs (fun _ => ⟨1, .other 0⟩) [0x1000#64])
          (loopAt 0x1000#32) [.resume, .step 0, .stepOver 0] final ∧
        Follows 1 [0x1000#64] after final) ∨ Ended nopAndJump 1 after) := by
  have driven : Driven nopAndJump 1 loopStopped := by
    intro event mem
    rw [List.eq_of_mem_replicate mem]
    exact nopAndJump.drives_waitpid 1 4
  have noCalls : Transition.StepsSatisfy (Session.perform fun _ => ⟨1, .other 0⟩)
      (StepsOverNoCall fun _ => ⟨1, .other 0⟩) loopStopped [.resume, .step 0, .stepOver 0] := by
    refine ⟨?_, fun _ _ => ⟨?_, fun _ _ => ⟨?_, fun _ _ => trivial⟩⟩⟩ <;>
      exact fun _ _ _ _ => rfl
  obtain ⟨after, reached⟩ : ∃ after, Transition.run (Session.perform fun _ => ⟨1, .other 0⟩)
      loopStopped [.resume, .step 0, .stepOver 0] = some after := by
    have resumed : loopStopped.perform (fun _ => ⟨1, .other 0⟩) .resume =
        some (resumeLoop loopStopped) := by
      simp [Session.perform, resume_loopStopped]
    have stepped : (Transition.run (Session.perform fun _ => ⟨1, .other 0⟩)
        (resumeLoop loopStopped) [.step 0, .stepOver 0]).isSome = true := rfl
    rcases Option.isSome_iff_exists.mp stepped with ⟨after, reached⟩
    exact ⟨after, Transition.run_cons_eq_some.mpr ⟨_, resumed, reached⟩⟩
  exact ⟨after, reached,
    performs_of_run follows_loopStopped debuggable_loop driven noCalls reached⟩

end Session

end RustDbg
