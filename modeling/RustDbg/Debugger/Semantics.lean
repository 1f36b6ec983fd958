import RustDbg.Debugger.Leftover
import RustDbg.Debugger.Observation

/-!
# What every command makes of a program

Over a call, `stepOver` runs the program to the first breakpoint other than the one the call is
at, or back from the call. It leaves an enabled breakpoint there, and the thread one byte behind
the instruction that it has come to. With this meaning of the command, debugger and program can be
compared over every run.
-/

namespace RustDbg

open Execution StateTransition Traversal
open MDBStack (wordIn)

/-- Where the instruction that is decoded in a state ends. -/
def ProgramState.behindCall (ud : Udis86) (state : ProgramState) : Address :=
  state.pc + BitVec.ofNat 64 (ud (window state.memory state.pc 32)).size

/-- The next instruction is decoded as a call. -/
def ProgramState.AtCall (ud : Udis86) (state : ProgramState) : Prop :=
  (ud (window state.memory state.pc 32)).mnemonic = .UD_Icall

instance (ud : Udis86) (state : ProgramState) : Decidable (state.AtCall ud) :=
  inferInstanceAs (Decidable (_ = _))

namespace Machine

/-- What a command makes of a program and of the addresses at which breakpoints are enabled. -/
inductive Carries (machine : Machine) (ud : Udis86) :
    List Address × ProgramState → Command → List Address × ProgramState → Prop where
  | performs {armed : List Address} {state next : ProgramState} {command : Command}
      (performs : machine.Performs ud armed state command next) :
      Carries machine ud (armed, state) command (armed, next)
  | stepOverCall {armed : List Address} {state final : ProgramState} (call : state.AtCall ud)
      (run : StopsAt machine.execute
        (·.pc ∈ state.behindCall ud :: armed.filter (· ≠ state.pc)) state final) :
      Carries machine ud (armed, state) (.stepOver 0) (state.behindCall ud :: armed, final.skipInt3)

/-- Wherever commands take a program, it cannot notice the breakpoints, nor one behind a call. -/
def Withstands (machine : Machine) (ud : Udis86) (start : List Address × ProgramState) : Prop :=
  ∀ commands armed state, Through (machine.Carries ud) start commands (armed, state) →
    machine.Debuggable armed state ∧
      (state.AtCall ud → machine.Debuggable (state.behindCall ud :: armed) state)

theorem Withstands.carries {machine : Machine} {ud : Udis86} {command : Command}
    {start next : List Address × ProgramState} (program : machine.Withstands ud start)
    (carries : machine.Carries ud start command next) : machine.Withstands ud next :=
  fun _ armed state path => program _ armed state (.cons carries path)

/-! ## Programs that cannot notice breakpoints -/

variable {machine : Machine} {armed placed : List Address} {start state next : ProgramState}

theorem Debuggable.memory_armed (program : machine.Debuggable armed start)
    (reaches : Reaches machine.execute start state)
    (executed : machine.execute state = some next) {address : Address} (mem : address ∈ armed) :
    next.memory address = state.memory address := by
  have same := program.oblivious state reaches state.registers.trapFlag state.memory
    (fun _ _ => rfl) fun _ _ => rfl
  simp only [MDBThreadState32.withTrapFlag_trapFlag, executed, Option.map_some,
    Option.some.injEq] at same
  rw [same]
  exact if_pos mem

/-- Fewer breakpoints are not noticed either. -/
theorem Debuggable.mono (program : machine.Debuggable armed start)
    (subset : ∀ address ∈ placed, address ∈ armed) : machine.Debuggable placed start where
  noInt3 := program.noInt3
  unsplit state reaches offset positive within :=
    program.unsplit state reaches offset positive within ∘ subset _
  oblivious state reaches flag memory elsewhere instruction := by
    have executed := program.oblivious state reaches flag memory
      (fun address absent => elsewhere address (absent ∘ subset address)) instruction
    rw [executed]
    cases result : machine.execute state with
    | none => rfl
    | some next =>
        simp only [Option.map_some, Option.some.injEq, ProgramState.mk.injEq, true_and]
        funext address
        by_cases here : address ∈ placed
        · rw [if_pos here, if_pos (subset address here)]
        · rw [if_neg here]
          split
          · rename_i mem
            rw [elsewhere address here, program.memory_armed reaches result mem]
          · rfl

end Machine

namespace Session

variable {machine : Machine} {port : ThreadPort} {armed : List Address} {session after : Session}
  {start state : ProgramState} {ud : Udis86} {answer : Bool} {index : Nat}
  {breakpoint : MDBBreakpoint}

/-! ## What is done before a wait -/

theorem getElem?_enable_of_ne {position : Nat}
    (present : session.breakpoints[position]? = some breakpoint)
    (disabled : breakpoint.enabled = false) (other : position ≠ index) :
    (session.enable (.regular position) true).breakpoints[index]? =
      session.breakpoints[index]? := by
  have enabled : (session.enable (.regular position) true).breakpointState = _ :=
    BreakpointState.enable_true_of_disabled present disabled
  apply (congrArg (·.breakpoints[index]?) enabled).trans
  exact List.getElem?_set_ne other

/-- The breakpoint behind the call is put at the end of the list. -/
theorem getElem?_stepOverToWait (address : Address)
    (present : ((session.findEnabled address).elim session session.disable).breakpoints[index]? =
      some breakpoint) :
    (session.stepOverToWait ud address).breakpoints[index]? = some breakpoint := by
  have bound := (List.getElem?_eq_some_iff.mp present).1
  simp only [stepOverToWait, breakpoints_resumeAllThreadsAndTask]
  refine (getElem?_enable_of_ne List.getElem?_concat_length rfl (Nat.ne_of_gt bound)).trans ?_
  exact (List.getElem?_append_left bound).trans present

namespace Follows

theorem disable (follows : Follows port armed session state)
    (present : session.breakpoints[index]? = some breakpoint)
    (enabled : breakpoint.enabled = true) :
    Follows port (armed.filter (· ≠ breakpoint.address)) (session.disable (.regular index)) state ∧
      (session.disable (.regular index)).breakpoints =
        session.breakpoints.set index { breakpoint with enabled := false } := by
  rcases breakpointState_enable follows.accesses (.regular index) false with ⟨tables, accesses⟩
  have placed := (follows.placed.disable present enabled).1
  rw [← tables] at placed
  refine ⟨⟨follows.sole.enable _ _, placed, follows.clear, accesses⟩, ?_⟩
  apply (congrArg (·.breakpoints) tables).trans
  rw [BreakpointState.enable_false_of_enabled present enabled]
  rfl

theorem enable (follows : Follows port armed session state)
    (present : session.breakpoints[index]? = some breakpoint)
    (disabled : breakpoint.enabled = false) :
    Follows port (breakpoint.address :: armed) (session.enable (.regular index) true) state := by
  rcases breakpointState_enable follows.accesses (.regular index) true with ⟨tables, accesses⟩
  have placed := follows.placed.enable present disabled
  rw [← tables] at placed
  exact ⟨follows.sole.enable _ _, placed, follows.clear, accesses⟩

theorem createBreakpoint (follows : Follows port armed session state) {address : Address}
    (fresh : address ∉ session.breakpoints.map (·.address)) :
    Follows port armed (session.createBreakpoint address).2 state where
  sole := ⟨follows.sole.live, follows.sole.current, follows.sole.cached, follows.sole.is64Bit,
    follows.sole.pidKnown⟩
  placed := follows.placed.createBreakpoint fresh _
  clear := follows.clear
  accesses := follows.accesses

theorem resumeAllThreadsAndTask (follows : Follows port armed session state) :
    Follows port armed session.resumeAllThreadsAndTask state := by
  have tables := breakpointState_resumeAllThreadsAndTask session
  rcases resumedAll session with ⟨target, same, resumed⟩
  refine ⟨?_, ?_, follows.clear, ?_⟩
  · rw [resumed]
    exact follows.sole.sameExecution same
  · rw [tables]
    exact follows.placed
  · rw [resumed]
    exact follows.accesses

theorem clearTransient (follows : Follows port armed session state) :
    Follows port armed { session with transientBreakpoints := [] } state := by
  have noTransient : session.transientBreakpoints = [] := follows.placed.noTransient
  have tables : ({ session with transientBreakpoints := [] } : Session).breakpointState =
      session.breakpointState := by
    simp only [breakpointState, noTransient]
  refine ⟨⟨follows.sole.live, follows.sole.current, follows.sole.cached, follows.sole.is64Bit,
    follows.sole.pidKnown⟩, ?_, follows.clear, follows.accesses⟩
  rw [tables]
  exact follows.placed

theorem congr (follows : Follows port armed session state) {placed : List Address}
    (same : ∀ address, address ∈ placed ↔ address ∈ armed) : Follows port placed session state :=
  ⟨follows.sole, follows.placed.congr same, follows.clear, follows.accesses⟩

/-- At the call the breakpoint there, if any, is switched off. -/
theorem cleared (follows : Follows port armed session state) :
    Follows port (armed.filter (· ≠ state.pc))
        ((session.findEnabled state.pc).elim session session.disable) state ∧
      ((session.findEnabled state.pc).elim session session.disable).breakpoints.map (·.address) =
        session.breakpoints.map (·.address) := by
  rcases findEnabled_cases follows.placed state.pc with
    ⟨found, absent⟩ | ⟨index, breakpoint, found, -, present, enabled, here⟩
  · rw [found, Option.elim_none]
    refine ⟨follows.congr ?_, rfl⟩
    intro address
    simp only [List.mem_filter, decide_eq_true_eq, and_iff_left_iff_imp]
    rintro mem rfl
    exact absent mem
  · rw [found, Option.elim_some]
    rcases follows.disable present enabled with ⟨disabled, table⟩
    rw [here] at disabled
    refine ⟨disabled, ?_⟩
    rw [table]
    exact BreakpointState.map_address_set present rfl

/-- The program is let run with a breakpoint behind the call, but none at it. -/
theorem stepOverToWait (follows : Follows port armed session state)
    (fresh : state.behindCall ud ∉ session.breakpoints.map (·.address)) :
    Follows port (state.behindCall ud :: armed.filter (· ≠ state.pc))
      (session.stepOverToWait ud state.pc) state := by
  rcases follows.cleared with ⟨cleared, addresses⟩
  rw [← addresses] at fresh
  have created := cleared.nextAccess.createBreakpoint fresh
  have enabled := created.enable List.getElem?_concat_length rfl
  simp only [Session.stepOverToWait, getInstructionLength, cleared.decodeAt_eq]
  exact enabled.resumeAllThreadsAndTask

/-- A wait for the program finds it one byte behind the breakpoint that it has come to. -/
theorem wait (follows : Follows port armed session state)
    (program : machine.Debuggable armed state) (driven : Driven machine port session)
    {waited : Session} {waitState : MDBProcessRunState}
    (returned : session.internalWait SIG_TRAP = some (waitState, waited)) :
    (waitState = .PRS_STOPPED ∧ ∃ final, StopsAt machine.execute (·.pc ∈ armed) state final ∧
        Follows port armed waited final.skipInt3 ∧ Driven machine port waited) ∨
      (waitState = .PRS_TERMINATED ∧ Ended machine port waited) := by
  have settings := SameSettings.internalWait returned
  rcases follows.sole.wait driven returned with ⟨drivenLater, found⟩
  cases found with
  | ended gone => exact Or.inr ⟨rfl, gone, drivenLater⟩
  | stopped stops sole memory =>
      rcases stops with ⟨last, run, paused⟩
      rw [← MDBThreadState32.withTrapFlag_eq_self follows.clear, patched_eq follows.placed] at run
      rcases program.freeRun .refl follows.clear run paused with ⟨final, finalRun, runsOn, rfl⟩
      refine Or.inl ⟨rfl, final, finalRun, ⟨?_, ?_, runsOn.clear, ?_⟩, drivenLater⟩
      · have registers := MDBThreadState32.withTrapFlag_eq_self runsOn.clear
        simpa only [ProgramState.skipInt3, ProgramState.patched, registers] using sole
      · exact follows.placed.replace runsOn.saved settings.breakpoints
          settings.transientBreakpoints memory
      · exact settings.accesses.trans follows.accesses

/-! ## Stepping over a call -/

/-- After the stop the breakpoint at the call, if any, is switched on again. -/
theorem switchedOn (follows : Follows port armed session state) {waited : Session}
    {final : ProgramState} (table : waited.breakpoints =
      (session.stepOverToWait ud state.pc).breakpoints)
    (stands : Follows port (state.behindCall ud :: armed.filter (· ≠ state.pc)) waited final) :
    Follows port (state.behindCall ud :: armed)
      ((session.findEnabled state.pc).elim waited (waited.enable · true)) final := by
  rcases findEnabled_cases follows.placed state.pc with
    ⟨found, absent⟩ | ⟨index, breakpoint, found, mem, present, enabled, here⟩
  · rw [found, Option.elim_none]
    apply stands.congr
    intro address
    simp only [List.mem_cons, List.mem_filter, decide_eq_true_eq]
    refine or_congr_right (and_iff_left_of_imp ?_).symm
    rintro armedHere rfl
    exact absent armedHere
  · have switchedOff : ((session.findEnabled state.pc).elim session
        session.disable).breakpoints[index]? = some { breakpoint with enabled := false } := by
      rw [found, Option.elim_some, (follows.disable present enabled).2]
      exact List.getElem?_set_self (List.getElem?_eq_some_iff.mp present).1
    have kept : waited.breakpoints[index]? = some { breakpoint with enabled := false } := by
      rw [table]
      exact getElem?_stepOverToWait state.pc switchedOff
    rw [found, Option.elim_some]
    apply (stands.enable kept rfl).congr
    intro address
    simp only [List.mem_cons, List.mem_filter, decide_eq_true_eq, here]
    by_cases same : address = state.pc <;> simp [same, mem]

/-- The run stops at a breakpoint other than the one at the call, or behind the call. -/
theorem finishStepOver (follows : Follows port armed session state)
    (fresh : state.behindCall ud ∉ session.breakpoints.map (·.address))
    (program : machine.Debuggable (state.behindCall ud :: armed) state)
    (driven : Driven machine port session) {waited : Session} {waitState : MDBProcessRunState}
    (returned : (session.stepOverToWait ud state.pc).internalWait SIG_TRAP =
      some (waitState, waited)) :
    (waitState = .PRS_STOPPED ∧ ∃ final, StopsAt machine.execute
          (·.pc ∈ state.behindCall ud :: armed.filter (· ≠ state.pc)) state final ∧
        Follows port (state.behindCall ud :: armed)
          ((session.findEnabled state.pc).elim waited (waited.enable · true)) final.skipInt3 ∧
        Driven machine port waited) ∨
      (waitState = .PRS_TERMINATED ∧ Ended machine port waited) := by
  have subset : ∀ address ∈ state.behindCall ud :: armed.filter (· ≠ state.pc),
      address ∈ state.behindCall ud :: armed := by
    intro address mem
    rcases List.mem_cons.mp mem with rfl | elsewhere
    · exact List.mem_cons_self
    · exact List.mem_cons_of_mem _ (List.mem_filter.mp elsewhere).1
  have drivenRun := driven.quiet (.stepOverToWait session ud state.pc)
  rcases (follows.stepOverToWait fresh).wait (program.mono subset) drivenRun returned with
    ⟨rfl, final, run, stands, drivenLater⟩ | ended
  · have table := (SameSettings.internalWait returned).breakpoints
    exact Or.inl ⟨rfl, final, run, follows.switchedOn table stands, drivenLater⟩
  · exact Or.inr ended

/--
Over a call the program is run to the first breakpoint that is not at the call, or to the
instruction behind it, where a breakpoint is left, and the thread one byte further.
-/
theorem stepOverCall (follows : Follows port armed session state) (call : state.AtCall ud)
    (fresh : state.behindCall ud ∉ session.breakpoints.map (·.address))
    (program : machine.Debuggable (state.behindCall ud :: armed) state)
    (driven : Driven machine port session)
    (stepped : session.stepOver ud 0 = some (answer, after)) :
    (∃ final, StopsAt machine.execute
          (·.pc ∈ state.behindCall ud :: armed.filter (· ≠ state.pc)) state final ∧
        Follows port (state.behindCall ud :: armed) after final.skipInt3 ∧
        Driven machine port after) ∨ Ended machine port after := by
  rcases follows.sole.getElem?_threads with ⟨thread, present, -, -, -⟩
  have pc_eq := follows.pc_eq present
  have decoded : Follows port armed (session.isCallInstruction ud state.pc).2 state :=
    follows.nextAccess
  have isCall : (session.isCallInstruction ud state.pc).1 = true := by
    simp only [isCallInstruction, follows.decodeAt_eq, decide_eq_true_eq]
    exact call
  simp only [Session.stepOver, present, Option.bind_eq_bind, Option.bind_some, pc_eq, isCall,
    Bool.true_eq_false, if_false, Option.bind_eq_some_iff, Prod.exists] at stepped
  rcases stepped with ⟨waitState, waited, returned, result⟩
  rcases decoded.finishStepOver fresh program
    (driven.quiet (.isCallInstruction session ud state.pc)) returned with
    ⟨rfl, final, run, stands, drivenLater⟩ | ⟨rfl, ended⟩
  · left
    simp only [if_true, Option.bind_eq_some_iff, Option.pure_def, Option.some.injEq,
      Prod.mk.injEq] at result
    rcases result with ⟨deleted, deletion, -, rfl⟩
    have quiet := (Quiet.elim_enable waited _).trans (.deleteTransientBreakpoints _ deletion)
    simp only [deleteTransientBreakpoints, Option.ite_none_left_eq_some, Option.some.injEq]
      at deletion
    rcases deletion with ⟨-, rfl⟩
    exact ⟨final, run, stands.clearTransient, drivenLater.quiet quiet⟩
  · right
    simp only [reduceCtorEq, if_false, Option.pure_def, Option.some.injEq, Prod.mk.injEq] at result
    rw [← result.2]
    exact ended

end Follows

/-! ## Commands -/

/-- There is no breakpoint yet, enabled or not, behind the call that is stepped over. -/
def StepsOverFresh (ud : Udis86) (session : Session) (command : Command) : Prop :=
  ∀ index thread, command = .stepOver index → session.process.threads[index]? = some thread →
    (session.isCallInstruction ud thread.state32.pc).1 = true →
      session.behindCall ud thread ∉ session.breakpoints.map (·.address)

theorem Follows.behindCall_eq (follows : Follows port armed session state) {thread : MDBThread}
    (pc_eq : thread.state32.pc = state.pc) :
    session.behindCall ud thread = state.behindCall ud := by
  have decoded : Follows port armed (session.isCallInstruction ud state.pc).2 state :=
    follows.nextAccess
  simp only [behindCall, ProgramState.behindCall, callLength, getInstructionLength, pc_eq,
    decoded.cleared.1.decodeAt_eq]

/-- Each command does to target and breakpoints what it means, or finds the program ended. -/
theorem Follows.carries {command : Command} (follows : Follows port armed session state)
    (program : machine.Withstands ud (armed, state)) (driven : Driven machine port session)
    (fresh : StepsOverFresh ud session command)
    (performed : session.perform ud command = some after) :
    (∃ next, machine.Carries ud (armed, state) command next ∧
        Follows port next.1 after next.2 ∧ Driven machine port after) ∨
      Ended machine port after := by
  rcases program [] armed state .nil with ⟨debuggable, overCall⟩
  by_cases noCall : StepsOverNoCall ud session command
  · rcases follows.perform debuggable .refl driven noCall performed with
      ⟨next, performs, later⟩ | ended
    · exact Or.inl ⟨(armed, next), .performs performs, later⟩
    · exact Or.inr ended
  · simp only [StepsOverNoCall, not_forall, Bool.not_eq_false] at noCall
    rcases noCall with ⟨index, thread, rfl, present, call⟩
    obtain rfl := (follows.thread_eq present).1
    have pc_eq := follows.pc_eq present
    have new := fresh 0 thread rfl present call
    rw [follows.behindCall_eq pc_eq] at new
    have atCall : state.AtCall ud := by
      simp only [isCallInstruction, follows.decodeAt_eq, decide_eq_true_eq, pc_eq] at call
      exact call
    rcases Option.map_eq_some_iff.mp performed with ⟨⟨answer, _⟩, stepped, rfl⟩
    rcases follows.stepOverCall atCall new (overCall atCall) driven stepped with
      ⟨final, run, later⟩ | ended
    · exact Or.inl ⟨_, .stepOverCall atCall run, later⟩
    · exact Or.inr ended

/-- The session stands where the commands have taken a program that goes on to withstand them. -/
structure Keeps (machine : Machine) (ud : Udis86) (port : ThreadPort) (session : Session)
    (here : List Address × ProgramState) : Prop where
  follows : Follows port here.1 session here.2
  driven : Driven machine port session
  program : machine.Withstands ud here

theorem simulates_carries : Transition.Simulates (Session.perform ud) (StepsOverFresh ud)
    (machine.Carries ud) (Keeps machine ud port) (Ended machine port) where
  kept session here command next keeps fresh performed := by
    rcases keeps.follows.carries keeps.program keeps.driven fresh performed with
      ⟨after, carries, follows, driven⟩ | ended
    · exact Or.inl ⟨after, carries, follows, driven, keeps.program.carries carries⟩
    · exact Or.inr ended
  stays _ _ _ ended performed := ended.advances (advances_perform performed)

/--
In every run of commands the debugger takes a program that cannot notice breakpoints, and these,
where the meaning of one command after the other takes them. It shows the registers, the memory,
the call stack and the procedures of the program there, unless that has ended.
-/
theorem carries_of_run {commands : List Command} (follows : Follows port armed session start)
    (program : machine.Withstands ud (armed, start)) (driven : Driven machine port session)
    (fresh : Transition.StepsSatisfy (Session.perform ud) (StepsOverFresh ud) session commands)
    (reached : Transition.run (Session.perform ud) session commands = some after) :
    (∃ final, Through (machine.Carries ud) (armed, start) commands final ∧
        Follows port final.1 after final.2 ∧ after.Shows final.2) ∨ Ended machine port after := by
  rcases simulates_carries.run ⟨follows, driven, program⟩ fresh reached with
    ⟨final, path, keeps⟩ | ended
  · exact Or.inl ⟨final, path, keeps.follows, keeps.follows.shows⟩
  · exact Or.inr ended

end Session

/-! ## A program with a call -/

namespace ProgramState

/-- A call pushes the address behind it; its operand counts from there. -/
def call (state : ProgramState) : ProgramState where
  registers := { state.registers with
    eip := state.registers.eip + 5 + wordIn state.memory (state.pc + 1)
    esp := state.registers.esp - 4 }
  memory := store state.memory ((state.registers.esp - 4).setWidth 64)
    (LittleEndian.toBytes 4 (state.registers.eip + 5).toNat)

def ret (state : ProgramState) : ProgramState where
  registers := { state.registers with
    eip := wordIn state.memory (state.registers.esp.setWidth 64)
    esp := state.registers.esp + 4 }
  memory := state.memory

/-- No patch is in the word that a `ret` pops, nor in the one that a call pushes. -/
structure StackClearOf (state : ProgramState) (armed : List Address) : Prop where
  popped : ∀ offset < 4, state.registers.esp.setWidth 64 + BitVec.ofNat 64 offset ∉ armed
  pushed : ∀ offset < 4, (state.registers.esp - 4).setWidth 64 + BitVec.ofNat 64 offset ∉ armed

end ProgramState

/-- Calls and the returns from them; any other instruction ends the program. -/
def callAndReturn : Machine where
  execute state :=
    if state.memory state.pc = 0xE8#8 then some state.call
    else if state.memory state.pc = 0xC3#8 then some state.ret
    else none
  instructionLength state := if state.memory state.pc = 0xE8#8 then 5 else 1

section Oblivious

variable {armed : List Address} {state : ProgramState} {memory : Memory} {flag : Bool}

theorem wordIn_congr {other : Memory} {address : Address}
    (agree : ∀ offset < 4,
      memory (address + BitVec.ofNat 64 offset) = other (address + BitVec.ofNat 64 offset)) :
    wordIn memory address = wordIn other address :=
  congrArg (fun bytes => BitVec.ofNat 32 (LittleEndian.ofBytes bytes)) (window_congr agree)

/-- What is stored elsewhere than at patched addresses leaves these alone. -/
theorem store_elsewhere {bytes : List Byte} {address : Address}
    (elsewhere : ∀ place, place ∉ armed → memory place = state.memory place)
    (unreached : ∀ offset < bytes.length, address + BitVec.ofNat 64 offset ∉ armed) :
    store memory address bytes = fun place =>
      if place ∈ armed then memory place else store state.memory address bytes place := by
  funext place
  split
  · rename_i mem
    have outside : bytes.length ≤ (place - address).toNat := by
      by_contra inside
      apply unreached _ (Nat.lt_of_not_le inside)
      rw [BitVec.ofNat_toNat, BitVec.setWidth_eq, BitVec.add_comm, BitVec.sub_add_cancel]
      exact mem
    rw [store, List.getElem?_eq_none_iff.mpr outside, Option.getD_none]
  · rename_i absent
    rw [store, store, elsewhere place absent]

theorem call_patched (clear : state.StackClearOf armed)
    (elsewhere : ∀ place, place ∉ armed → memory place = state.memory place)
    (operand : wordIn memory (state.pc + 1) = wordIn state.memory (state.pc + 1)) :
    ProgramState.call ⟨state.registers.withTrapFlag flag, memory⟩ =
      ⟨state.call.registers.withTrapFlag flag,
        fun place => if place ∈ armed then memory place else state.call.memory place⟩ := by
  have stored : store memory ((state.registers.esp - 4).setWidth 64)
        (LittleEndian.toBytes 4 (state.registers.eip + 5).toNat) =
      fun place => if place ∈ armed then memory place else state.call.memory place :=
    store_elsewhere elsewhere (by simpa using clear.pushed)
  have registers : (ProgramState.call ⟨state.registers.withTrapFlag flag, memory⟩).registers =
      state.call.registers.withTrapFlag flag := by
    have eip : wordIn memory ((state.registers.withTrapFlag flag).pc + 1) =
        wordIn state.memory (state.pc + 1) := operand
    simp only [ProgramState.call, ProgramState.pc, eip]
    rfl
  exact congr (congrArg ProgramState.mk registers) stored

theorem ret_patched (clear : state.StackClearOf armed)
    (elsewhere : ∀ place, place ∉ armed → memory place = state.memory place) :
    ProgramState.ret ⟨state.registers.withTrapFlag flag, memory⟩ =
      ⟨state.ret.registers.withTrapFlag flag,
        fun place => if place ∈ armed then memory place else state.ret.memory place⟩ := by
  have popped : wordIn memory ((state.registers.withTrapFlag flag).esp.setWidth 64) =
      wordIn state.memory (state.registers.esp.setWidth 64) :=
    wordIn_congr fun offset bound => elsewhere _ (clear.popped offset bound)
  have kept : memory = fun place => if place ∈ armed then memory place else state.memory place := by
    funext place
    split
    · rfl
    · rename_i absent
      exact elsewhere place absent
  have registers : (ProgramState.ret ⟨state.registers.withTrapFlag flag, memory⟩).registers =
      state.ret.registers.withTrapFlag flag := by
    simp only [ProgramState.ret, popped]
    rfl
  exact congr (congrArg ProgramState.mk registers) kept

/-- Patches in neither the instruction nor the stack are not noticed. -/
theorem oblivious_callAndReturn (clear : state.StackClearOf armed)
    (elsewhere : ∀ place, place ∉ armed → memory place = state.memory place)
    (instruction : ∀ offset < callAndReturn.instructionLength state,
      memory (state.pc + BitVec.ofNat 64 offset) =
        state.memory (state.pc + BitVec.ofNat 64 offset)) :
    callAndReturn.execute ⟨state.registers.withTrapFlag flag, memory⟩ =
      (callAndReturn.execute state).map fun next => ⟨next.registers.withTrapFlag flag,
        fun place => if place ∈ armed then memory place else next.memory place⟩ := by
  have opcode : memory state.pc = state.memory state.pc := by
    have first := instruction 0 (by simp only [callAndReturn]; split <;> omega)
    simpa using first
  change (if memory state.pc = 0xE8#8 then _ else if memory state.pc = 0xC3#8 then _ else none) =
    (if state.memory state.pc = 0xE8#8 then _ else if state.memory state.pc = 0xC3#8 then _
      else none : Option ProgramState).map _
  rw [opcode]
  split
  · rename_i call
    have operand : wordIn memory (state.pc + 1) = wordIn state.memory (state.pc + 1) := by
      apply wordIn_congr
      intro offset bound
      have behind := instruction (offset + 1) (by simp only [callAndReturn, if_pos call]; omega)
      have next : state.pc + 1 + BitVec.ofNat 64 offset =
          state.pc + BitVec.ofNat 64 (offset + 1) := by
        bv_omega
      rw [next]
      exact behind
    exact congrArg some (call_patched clear elsewhere operand)
  · split
    · exact congrArg some (ret_patched clear elsewhere)
    · rfl

end Oblivious

namespace Session

/-- At `0x1000` a call of `0x2000`, where there is a `ret`, and a `hlt` everywhere else. -/
def calling : ProgramState where
  registers := registersWith 0x1000#32 0x8000#32
  memory := store (store (fun _ => 0xF4#8) 0x1000#64 [0xE8#8, 0xFB#8, 0x0F#8, 0x00#8, 0x00#8])
    0x2000#64 [0xC3#8]

/-- The call is ahead, or made, or left, or the `hlt` behind it has been taken for a breakpoint. -/
def NearCall (state : ProgramState) : Prop :=
  state = calling ∨ state = calling.call ∨ state = calling.call.ret ∨
    state = calling.call.ret.skipInt3

theorem nearCall_of_reaches {state next : ProgramState} (near : NearCall state)
    (reaches : Reaches callAndReturn.execute state next) : NearCall next := by
  refine reaches_invariant NearCall ?_ near reaches
  rintro state next (rfl | rfl | rfl | rfl) executed
  · exact Or.inr (Or.inl (Option.some.inj executed).symm)
  · exact Or.inr (Or.inr (Or.inl (Option.some.inj executed).symm))
  · cases executed
  · cases executed

/-- Where commands take the program: breakpoints are at the call and behind it only. -/
structure AroundCall (here : List Address × ProgramState) : Prop where
  armed : ∀ address ∈ here.1, address = 0x1000#64 ∨ address = 0x1005#64
  near : NearCall here.2

theorem AroundCall.stackClear {here : List Address × ProgramState} (around : AroundCall here)
    {state : ProgramState} (near : NearCall state) : state.StackClearOf here.1 := by
  have stack : state.registers.esp = 0x8000#32 ∨ state.registers.esp = 0x7FFC#32 := by
    rcases near with rfl | rfl | rfl | rfl
    · exact Or.inl rfl
    · exact Or.inr rfl
    · exact Or.inl rfl
    · exact Or.inl rfl
  constructor
  · intro offset bound mem
    rcases stack with esp | esp <;> rw [esp] at mem <;>
      rcases around.armed _ mem with wrong | wrong <;> bv_omega
  · intro offset bound mem
    rcases stack with esp | esp <;> rw [esp] at mem <;>
      rcases around.armed _ mem with wrong | wrong <;> bv_omega

theorem AroundCall.debuggable {here : List Address × ProgramState} (around : AroundCall here) :
    callAndReturn.Debuggable here.1 here.2 where
  noInt3 state reaches := by
    rcases nearCall_of_reaches around.near reaches with rfl | rfl | rfl | rfl <;> decide
  unsplit state reaches offset positive within mem := by
    rcases nearCall_of_reaches around.near reaches with rfl | rfl | rfl | rfl
    · have bound : offset < 5 := within
      have pc : calling.pc = 0x1000#64 := rfl
      rw [pc] at mem
      rcases around.armed _ mem with wrong | wrong <;> bv_omega
    · exact absurd within (Nat.not_lt.mpr positive)
    · exact absurd within (Nat.not_lt.mpr positive)
    · exact absurd within (Nat.not_lt.mpr positive)
  oblivious state reaches _ _ elsewhere instruction :=
    oblivious_callAndReturn (around.stackClear (nearCall_of_reaches around.near reaches))
      elsewhere instruction

theorem atCall_nearCall {state : ProgramState} (near : NearCall state)
    (call : state.AtCall callDecoder) :
    state = calling ∧ state.behindCall callDecoder = 0x1005#64 := by
  rcases near with rfl | rfl | rfl | rfl
  · exact ⟨rfl, by decide⟩
  · exact absurd call (by decide)
  · exact absurd call (by decide)
  · exact absurd call (by decide)

theorem AroundCall.carries {here next : List Address × ProgramState} {command : Command}
    (carries : callAndReturn.Carries callDecoder here command next) (around : AroundCall here) :
    AroundCall next := by
  cases carries with
  | performs performs => exact ⟨around.armed, nearCall_of_reaches around.near performs.reaches⟩
  | @stepOverCall armed state final call run =>
      have start : NearCall state := around.near
      rcases atCall_nearCall start call with ⟨rfl, behind⟩
      have stopped := run.stopped
      rw [behind] at stopped
      -- The breakpoint at the call is switched off, so only the one behind it stops the run.
      have behindCall : final.pc = 0x1005#64 := by
        rcases List.mem_cons.mp stopped with here | filtered
        · exact here
        · rcases List.mem_filter.mp filtered with ⟨mem, other⟩
          rcases around.armed _ mem with atCall | here
          · exact absurd atCall (of_decide_eq_true other)
          · exact here
      rw [behind]
      refine ⟨?_, ?_⟩
      · intro address mem
        rcases List.mem_cons.mp mem with rfl | before
        · exact Or.inr rfl
        · exact around.armed address before
      · rcases nearCall_of_reaches start run.reaches with rfl | rfl | rfl | rfl
        · exact absurd behindCall (by decide)
        · exact absurd behindCall (by decide)
        · exact Or.inr (Or.inr (Or.inr rfl))
        · exact absurd behindCall (by decide)

theorem withstands_calling : callAndReturn.Withstands callDecoder ([0x1000#64], calling) := by
  intro commands armed state path
  have start : AroundCall ([0x1000#64], calling) :=
    ⟨fun address mem => Or.inl (List.mem_singleton.mp mem), Or.inl rfl⟩
  have around : AroundCall (armed, state) :=
    (path.mono fun _ _ _ carries => AroundCall.carries carries).preserves start
  refine ⟨around.debuggable, ?_⟩
  intro call
  have behind := (atCall_nearCall around.near call).2
  have more : AroundCall (state.behindCall callDecoder :: armed, state) := by
    refine ⟨?_, around.near⟩
    intro address mem
    rcases List.mem_cons.mp mem with rfl | before
    · exact Or.inr behind
    · exact around.armed address before
  exact more.debuggable

/-- A debugger of the program, which stands at a breakpoint at the call. -/
def attachedToCalling : Session :=
  { attached
      { memory := (calling.patched [0x1000#64] false).memory
        live := [1]
        thread := fun _ => ⟨.state32 calling.registers, ⟨.running, 0⟩⟩
        suspendCount := 0
        pidKnown := true }
      [callAndReturn.waitpid 1 4] with
    breakpoints := [⟨0x1000#64, 0xE8#8, true, none⟩]
    process := {
      running := true
      is64Bit := false
      threads := [⟨1, ⟨.running, 0⟩, calling.registers, default⟩]
      uninitialized := fun _ => default } }

theorem follows_attachedToCalling : Follows 1 [0x1000#64] attachedToCalling calling where
  sole := ⟨rfl, rfl, ⟨_, rfl, rfl, rfl⟩, rfl, rfl⟩
  placed := .singleton rfl rfl rfl
  clear := rfl
  accesses := rfl

/-- The call is stepped over to the `hlt` behind it, of which the thread stands one byte behind. -/
theorem carries_of_run_calling :
    ∃ after, Transition.run (Session.perform callDecoder) attachedToCalling [.stepOver 0] =
        some after ∧
      ((∃ final, Through (callAndReturn.Carries callDecoder) ([0x1000#64], calling)
          [.stepOver 0] final ∧ Follows 1 final.1 after final.2 ∧ after.Shows final.2) ∨
        Ended callAndReturn 1 after) := by
  have driven : Driven callAndReturn 1 attachedToCalling := by
    intro event mem
    rw [List.mem_singleton.mp mem]
    exact callAndReturn.drives_waitpid 1 4
  have fresh : Transition.StepsSatisfy (Session.perform callDecoder) (StepsOverFresh callDecoder)
      attachedToCalling [.stepOver 0] := by
    refine ⟨?_, fun _ _ => trivial⟩
    rintro index thread ⟨⟩ present call
    rcases Option.some.inj present with rfl
    decide
  obtain ⟨after, reached⟩ : ∃ after,
      Transition.run (Session.perform callDecoder) attachedToCalling [.stepOver 0] = some after :=
    Option.isSome_iff_exists.mp rfl
  exact ⟨after, reached,
    carries_of_run follows_attachedToCalling withstands_calling driven fresh reached⟩

end Session

end RustDbg
