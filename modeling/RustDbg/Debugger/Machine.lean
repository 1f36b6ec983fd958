import RustDbg.Debugger.Session
import RustDbg.Library.Execution

/-!
# Single-threaded programs

A 32-bit program with one thread, run by a deterministic processor. Breakpoints and
the trap flag turn its run into one that pauses; a program that cannot notice either
takes the same steps when it is patched. `Reports` says what the debugger's waits see
of such a program.
-/

namespace RustDbg

open StateTransition Execution

/-! ## The trap flag -/

namespace MDBThreadState32

variable {registers : MDBThreadState32}

def trapFlag (registers : MDBThreadState32) : Bool := registers.eflags.getLsbD 8

theorem getLsbD_setTrapBit (flags : BitVec 32) (flag : Bool) {i : Nat} (bound : i < 32) :
    (setTrapBit flags flag).getLsbD i = if i = 8 then flag else flags.getLsbD i := by
  have bit : (trapBit 32).getLsbD i = decide (8 = i) := by
    simp only [trapBit, BitVec.getLsbD_ofNat, show 0x100 = 2 ^ 8 from rfl, Nat.testBit_two_pow]
    simp [bound]
  by_cases here : i = 8
  · subst here
    cases flag <;> simp [setTrapBit, trapBit]
  · have other : (trapBit 32).getLsbD i = false := by simp [bit, Ne.symm here]
    cases flag <;> simp only [setTrapBit, Bool.false_eq_true, if_true, if_false, if_neg here,
      BitVec.getLsbD_or, BitVec.getLsbD_and, BitVec.getLsbD_not, other] <;> simp [bound]

@[simp]
theorem trapFlag_withTrapFlag (registers : MDBThreadState32) (flag : Bool) :
    (registers.withTrapFlag flag).trapFlag = flag := by
  rw [trapFlag, withTrapFlag, getLsbD_setTrapBit _ _ (by decide), if_pos rfl]

@[simp]
theorem withTrapFlag_withTrapFlag (registers : MDBThreadState32) (first second : Bool) :
    (registers.withTrapFlag first).withTrapFlag second = registers.withTrapFlag second := by
  have twice : setTrapBit (setTrapBit registers.eflags first) second =
      setTrapBit registers.eflags second := by
    apply BitVec.eq_of_getLsbD_eq
    intro i bound
    simp only [getLsbD_setTrapBit _ _ bound]
    split <;> rfl
  simp only [withTrapFlag, twice]

theorem withTrapFlag_trapFlag (registers : MDBThreadState32) :
    registers.withTrapFlag registers.trapFlag = registers := by
  have flags : setTrapBit registers.eflags registers.trapFlag = registers.eflags := by
    apply BitVec.eq_of_getLsbD_eq
    intro i bound
    rw [getLsbD_setTrapBit _ _ bound]
    split
    · rename_i bit
      rw [bit]
      rfl
    · rfl
  simp only [withTrapFlag, flags]

theorem withTrapFlag_eq_self (clear : registers.trapFlag = false) :
    registers.withTrapFlag false = registers := by
  have same : setTrapBit registers.eflags false = registers.eflags := by
    apply BitVec.eq_of_getLsbD_eq
    intro i bound
    rw [getLsbD_setTrapBit _ _ bound]
    split
    · rename_i here
      rw [here]
      exact clear.symm
    · rfl
  simp only [withTrapFlag, same]

end MDBThreadState32

/-! ## Programs -/

structure ProgramState where
  registers : MDBThreadState32
  memory : Memory

namespace ProgramState

def pc (state : ProgramState) : Address := state.registers.pc

/-- The next instruction is an `int3`. -/
def AtInt3 (state : ProgramState) : Prop := state.memory state.pc = int_3

instance (state : ProgramState) : Decidable state.AtInt3 :=
  inferInstanceAs (Decidable (state.memory state.pc = int_3))

def skipInt3 (state : ProgramState) : ProgramState :=
  { state with registers := { state.registers with eip := state.registers.eip + 1 } }

/-- The program with `int3` at some addresses and the trap flag set as given. -/
def patched (state : ProgramState) (armed : List Address) (flag : Bool) : ProgramState where
  registers := state.registers.withTrapFlag flag
  memory address := if address ∈ armed then int_3 else state.memory address

end ProgramState

/-- A processor and the instructions it fetches from memory, other than `int3`. -/
structure Machine where
  /-- What the next instruction does; none when it ends the program. -/
  execute : ProgramState → Option ProgramState
  instructionLength : ProgramState → Nat

namespace Machine

variable {machine : Machine} {armed : List Address} {start state next last : ProgramState}

/-- The machine will stop here, or stop behind the next instruction, or end. -/
def Pauses (machine : Machine) (state : ProgramState) : Prop :=
  state.AtInt3 ∨ state.registers.trapFlag = true ∨ machine.execute state = none

/-- The state in which a machine that pauses has stopped; none when it has ended. -/
def pause (machine : Machine) (state : ProgramState) : Option ProgramState :=
  if state.AtInt3 then some state.skipInt3 else machine.execute state

/--
The program has no `int3` of its own, no patch is inside an instruction it executes,
and it neither reads nor writes patched bytes as data nor depends on the trap flag.
-/
structure Debuggable (machine : Machine) (armed : List Address) (start : ProgramState) : Prop where
  noInt3 : ∀ state, Reaches machine.execute start state → ¬ state.AtInt3
  unsplit : ∀ state, Reaches machine.execute start state → ∀ offset, 0 < offset →
    offset < machine.instructionLength state → state.pc + BitVec.ofNat 64 offset ∉ armed
  oblivious : ∀ state, Reaches machine.execute start state → ∀ flag memory,
    (∀ address, address ∉ armed → memory address = state.memory address) →
    (∀ offset, offset < machine.instructionLength state →
      memory (state.pc + BitVec.ofNat 64 offset) =
        state.memory (state.pc + BitVec.ofNat 64 offset)) →
    machine.execute ⟨state.registers.withTrapFlag flag, memory⟩ =
      (machine.execute state).map fun next => ⟨next.registers.withTrapFlag flag,
        fun address => if address ∈ armed then memory address else next.memory address⟩

/-- An instruction leaves a clear trap flag clear and the bytes at patched addresses alone. -/
theorem Debuggable.keeps (program : machine.Debuggable armed start)
    (reaches : Reaches machine.execute start state) (clear : state.registers.trapFlag = false)
    (executed : machine.execute state = some next) :
    next.registers.trapFlag = false ∧
      ∀ address ∈ armed, next.memory address = state.memory address := by
  have same := program.oblivious state reaches false state.memory (fun _ _ => rfl) fun _ _ => rfl
  simp only [MDBThreadState32.withTrapFlag_eq_self clear] at same
  have next_eq : next = ⟨next.registers.withTrapFlag false,
      fun address => if address ∈ armed then state.memory address else next.memory address⟩ := by
    simpa [executed] using executed.symm.trans same
  constructor
  · rw [next_eq]
    exact MDBThreadState32.trapFlag_withTrapFlag _ _
  · intro address mem
    rw [next_eq]
    exact if_pos mem

/-- A patched program executes an instruction that is not patched itself as the program does. -/
theorem Debuggable.execute_patched (program : machine.Debuggable armed start)
    (reaches : Reaches machine.execute start state) (clear : state.registers.trapFlag = false)
    {placed : List Address} (subset : ∀ address ∈ placed, address ∈ armed)
    (unpatched : state.pc ∉ placed) (flag : Bool) :
    machine.execute (state.patched placed flag) =
      (machine.execute state).map (·.patched placed flag) := by
  have elsewhere (address : Address) (outside : address ∉ armed) :
      (state.patched placed flag).memory address = state.memory address :=
    if_neg (outside ∘ subset address)
  have instruction (offset : Nat) (within : offset < machine.instructionLength state) :
      (state.patched placed flag).memory (state.pc + BitVec.ofNat 64 offset) =
        state.memory (state.pc + BitVec.ofNat 64 offset) := by
    rcases Nat.eq_zero_or_pos offset with rfl | positive
    · apply if_neg
      simpa using unpatched
    · apply elsewhere _
      exact program.unsplit state reaches offset positive within
  have executed := program.oblivious state reaches flag _ elsewhere instruction
  apply Eq.trans executed
  cases result : machine.execute state with
  | none => rfl
  | some next =>
      have kept := (program.keeps reaches clear result).2
      simp only [Option.map_some, Option.some.injEq, ProgramState.patched,
        ProgramState.mk.injEq, true_and]
      funext address
      by_cases mem : address ∈ armed
      · simp only [if_pos mem, kept address mem]
      · simp only [if_neg mem, if_neg (mem ∘ subset address)]

theorem Debuggable.atInt3_patched_iff (program : machine.Debuggable armed start)
    (reaches : Reaches machine.execute start state) {placed : List Address} {flag : Bool} :
    (state.patched placed flag).AtInt3 ↔ state.pc ∈ placed := by
  have own := program.noInt3 state reaches
  change (if state.pc ∈ placed then int_3 else state.memory state.pc) = int_3 ↔ _
  split
  · rename_i mem
    simp [mem]
  · rename_i absent
    exact iff_of_false own absent

theorem Debuggable.singleStep (program : machine.Debuggable armed start)
    (reaches : Reaches machine.execute start state) (clear : state.registers.trapFlag = false)
    {placed : List Address} (subset : ∀ address ∈ placed, address ∈ armed)
    (unpatched : state.pc ∉ placed) {stop : ProgramState}
    (run : StopsAt machine.execute machine.Pauses (state.patched placed true) last)
    (paused : machine.pause last = some stop) :
    ∃ next, machine.execute state = some next ∧ stop = next.patched placed true := by
  have last_eq : last = state.patched placed true := by
    cases run with
    | here _ => rfl
    | later going _ _ =>
        exact absurd (Or.inr (Or.inl (MDBThreadState32.trapFlag_withTrapFlag _ _))) going
  have plain : ¬ last.AtInt3 := by
    simp only [last_eq, program.atInt3_patched_iff reaches]
    exact unpatched
  rw [pause, if_neg plain, last_eq, program.execute_patched reaches clear subset unpatched,
    Option.map_eq_some_iff] at paused
  rcases paused with ⟨next, executed, stop_eq⟩
  exact ⟨next, executed, stop_eq.symm⟩

/-- What holds of the program as it runs on from a state with the trap flag clear. -/
structure RunsOn (machine : Machine) (armed : List Address) (start state current : ProgramState) :
    Prop where
  reaches : Reaches machine.execute start current
  clear : current.registers.trapFlag = false
  saved : ∀ address ∈ armed, current.memory address = state.memory address

theorem Debuggable.runsOn (program : machine.Debuggable armed start) {current : ProgramState}
    (runs : RunsOn machine armed start state current)
    (executed : machine.execute current = some next) : RunsOn machine armed start state next := by
  rcases program.keeps runs.reaches runs.clear executed with ⟨clear, saved⟩
  exact ⟨runs.reaches.tail executed, clear,
    fun address mem => (saved address mem).trans (runs.saved address mem)⟩

/-- With the trap flag clear the program runs on to the first patched instruction. -/
theorem Debuggable.freeRun (program : machine.Debuggable armed start)
    (reaches : Reaches machine.execute start state) (clear : state.registers.trapFlag = false)
    {stop : ProgramState}
    (run : StopsAt machine.execute machine.Pauses (state.patched armed false) last)
    (paused : machine.pause last = some stop) :
    ∃ final, StopsAt machine.execute (·.pc ∈ armed) state final ∧
      RunsOn machine armed start state final ∧ stop = (final.patched armed false).skipInt3 := by
  have executes (current : ProgramState) (runs : RunsOn machine armed start state current)
      (unpatched : current.pc ∉ armed) :
      machine.execute (current.patched armed false) =
        (machine.execute current).map (·.patched armed false) :=
    program.execute_patched runs.reaches runs.clear (fun _ mem => mem) unpatched false
  have pauses (current : ProgramState) (runs : RunsOn machine armed start state current) :
      machine.Pauses (current.patched armed false) ↔
        current.pc ∈ armed ∨ machine.execute current = none := by
    have flag : (current.patched armed false).registers.trapFlag = false :=
      MDBThreadState32.trapFlag_withTrapFlag _ _
    simp only [Pauses, program.atInt3_patched_iff runs.reaches, flag]
    by_cases mem : current.pc ∈ armed
    · simp [mem]
    · simp [mem, executes current runs mem]
  rcases StopsAt.of_embedding (fun current => current.patched armed false) _
      (fun _ _ runs executed => program.runsOn runs executed) pauses
      (fun current runs going => executes current runs (going ∘ Or.inl))
      ⟨reaches, clear, fun _ _ => rfl⟩ run with ⟨final, rfl, runs, abstractRun⟩
  have mem : final.pc ∈ armed := by
    by_contra absent
    have ended := abstractRun.stopped.resolve_left absent
    rw [pause, if_neg (absent ∘ (program.atInt3_patched_iff runs.reaches).mp),
      executes final runs absent, ended] at paused
    simp at paused
  refine ⟨final, abstractRun.strengthen (fun _ => Or.inl) mem, runs, ?_⟩
  simp only [pause, if_pos ((program.atInt3_patched_iff runs.reaches).mpr mem)] at paused
  exact (Option.some.inj paused).symm

end Machine

/-! ## What waits see of a program -/

/-- The target has a single thread and shows this state of its program. -/
structure Target.Shows (target : Target) (port : ThreadPort) (state : ProgramState) : Prop where
  live : target.live = [port]
  registers : (target.thread port).registers = .state32 state.registers
  memory : target.memory = state.memory

/-- What a call of `waitpid` reports of a target that runs a program. -/
inductive Machine.Reports (machine : Machine) (port : ThreadPort) :
    Target → Target × WaitOutcome → Prop where
  /-- The debugger, not the target, receives a signal. -/
  | interrupted {target : Target} : Reports machine port target (target, .failed EINTR)
  | stopped {target after : Target} {state last stop : ProgramState} {continueError : Option Nat}
      (shown : target.Shows port state) (runnable : target.AllRunnable)
      (run : StopsAt machine.execute machine.Pauses state last)
      (paused : machine.pause last = some stop)
      (shows : after.Shows port stop) (pidKnown : after.pidKnown = target.pidKnown) :
      Reports machine port target (after, .stopped SIG_TRAP continueError)
  | exited {target after : Target} {state last : ProgramState} {code : Nat}
      (shown : target.Shows port state) (runnable : target.AllRunnable)
      (run : StopsAt machine.execute machine.Pauses state last)
      (ended : machine.pause last = none) (gone : after.live = []) :
      Reports machine port target (after, .exited code)
  | gone {target : Target} {errno : Nat} (gone : target.live = []) (error : errno ≠ EINTR) :
      Reports machine port target (target, .failed errno)

/-- The event is one of a target that runs a program. -/
def Machine.Drives (machine : Machine) (port : ThreadPort) (event : WaitEvent) : Prop :=
  ∀ target answer, event target = some answer → machine.Reports port target answer

/-! ## A call of `waitpid` -/

variable {machine : Machine} {bound : Nat} {state last : ProgramState}

instance (state : ProgramState) : Decidable (machine.Pauses state) :=
  inferInstanceAs (Decidable (_ ∨ _ ∨ _))

def Machine.runToPause (machine : Machine) : Nat → ProgramState → Option ProgramState
  | 0, _ => none
  | bound + 1, state =>
      if machine.Pauses state then some state
      else (machine.execute state).bind (machine.runToPause bound)

theorem Machine.stopsAt_of_runToPause (run : machine.runToPause bound state = some last) :
    StopsAt machine.execute machine.Pauses state last := by
  induction bound generalizing state with
  | zero => simp [runToPause] at run
  | succ bound ih =>
      simp only [runToPause] at run
      split at run
      · rename_i pauses
        exact Option.some.inj run ▸ .here pauses
      · rename_i going
        rcases Option.bind_eq_some_iff.mp run with ⟨next, executed, rest⟩
        exact .later going executed (ih rest)

/-- A call of `waitpid` for a program that pauses within a number of instructions. -/
def Machine.waitpid (machine : Machine) (port : ThreadPort) (bound : Nat) : WaitEvent :=
  fun target =>
    if target.live = [port] ∧ target.suspendCount = 0 ∧ target.threadSuspendCount port = 0 then
      do
        let registers ← target.threadGetState32 port
        let last ← machine.runToPause bound ⟨registers, target.memory⟩
        let stop ← machine.pause last
        return ({ target.setRegisters port stop.registers with memory := stop.memory },
          .stopped SIG_TRAP none)
    else none

theorem Machine.drives_waitpid (machine : Machine) (port : ThreadPort) (bound : Nat) :
    machine.Drives port (machine.waitpid port bound) := by
  intro target answer answered
  simp only [waitpid, Option.bind_eq_bind, Option.pure_def, Option.ite_none_right_eq_some,
    Option.bind_eq_some_iff, Option.some.injEq] at answered
  rcases answered with ⟨⟨live, task, thread⟩, registers, current, last, run, stop, paused, rfl⟩
  have mem : port ∈ target.live := by simp [live]
  have current : (target.thread port).registers = .state32 registers := by
    simp only [Target.threadGetState32, if_pos mem] at current
    split at current <;> simp_all
  refine .stopped ⟨live, current, rfl⟩ ⟨task, by simpa [live] using thread⟩
    (stopsAt_of_runToPause run) paused ⟨?_, ?_, rfl⟩ ?_
  · exact (Target.live_modifyThread ..).trans live
  · apply (Target.registers_setRegisters mem stop.registers port).trans
    exact if_pos rfl
  · exact Target.pidKnown_modifyThread ..

end RustDbg
