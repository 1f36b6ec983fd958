import RustDbg.Debugger.Scanning
import RustDbg.Debugger.Simulation
import RustDbg.Stack.Chain

/-!
# What the debugger shows

Registers, memory, stacks and code are shown as those of the program on its own at the place
where it has got to: the breakpoints and trap flags that took it there cannot be seen.
-/

namespace RustDbg

open BreakpointState (view)
open StateTransition Traversal

/-- A session without breakpoints, over the memory of a program. -/
def Session.undebugged (session : Session) (memory : Memory) : Session :=
  { session with
    target := { session.target with memory }
    breakpoints := []
    transientBreakpoints := [] }

/-! ## Stacks that agree -/

namespace MDBStack

variable {regions : List MDBCodeRegion} {thread : MDBThread} {session other : Session}
  {codeAddress frameAddress : Address}

/-- Sessions whose reads all succeed, with the same bytes. -/
structure ReadAlike (session other : Session) : Prop where
  reads : ReadsSucceed session
  otherReads : ReadsSucceed other
  view : view session.breakpointState = view other.breakpointState

theorem ReadAlike.nextAccess (alike : ReadAlike session other) :
    ReadAlike session.nextAccess.2 other.nextAccess.2 :=
  ⟨alike.reads.nextAccess, alike.otherReads.nextAccess, alike.view⟩

/-- An iteration finds its words twelve bytes above the frame, as no pointer is interior. -/
theorem walk_of_succeed (reads : ReadsSucceed session) (nonzero : frameAddress ≠ 0) (room : Nat)
    (codeAddress : Address) (frameSize : Nat) :
    (walk regions thread (room + 1) session codeAddress frameAddress frameSize).1 =
      let previous := wordIn (view session.breakpointState) (frameAddress + 12)
      let returnAddress :=
        wordIn (view session.breakpointState) (frameAddress + BitVec.ofNat 64 12 + 4)
      ⟨none, frameAddress, codeAddress, getRegion regions codeAddress, frameSize⟩ ::
      (walk regions thread room session.nextAccess.2.nextAccess.2.nextAccess.2
        ((codeAddress >>> 32 <<< 32) ||| returnAddress.setWidth 64) (previous.setWidth 64)
        (sizeBetween previous frameAddress)).1 := by
  have pushed := @walk_of_ne_null regions thread
    ⟨session, codeAddress, frameAddress, frameSize, []⟩ nonzero room
  simp only [iterate, readU32_of_succeed reads, isInteriorPointer_eq_false, if_true,
    readU32_of_succeed reads.nextAccess, readU32_of_succeed reads.nextAccess.nextAccess] at pushed
  rw [pushed]
  rfl

theorem walk_congr (alike : ReadAlike session other) (room : Nat)
    (codeAddress frameAddress : Address) (frameSize : Nat) :
    (walk regions thread room session codeAddress frameAddress frameSize).1 =
      (walk regions thread room other codeAddress frameAddress frameSize).1 := by
  induction room generalizing session other codeAddress frameAddress frameSize with
  | zero => rfl
  | succ room ih =>
      by_cases null : frameAddress = 0
      · simp only [walk_of_null _ _ _ null]
      · rw [walk_of_succeed alike.reads null, walk_of_succeed alike.otherReads null, alike.view]
        apply congrArg (List.cons _)
        exact ih alike.nextAccess.nextAccess.nextAccess _ _ _

theorem updateState_congr (alike : ReadAlike session other) :
    (updateState regions session thread).1 = (updateState regions other thread).1 := by
  simp only [updateState, walk_congr alike]

end MDBStack

/-! ## What is shown -/

namespace Session

variable {machine : Machine} {port : ThreadPort} {armed : List Address} {session after : Session}
  {start state : ProgramState} {ud : Udis86}

/-- What a debugger shows is as in a state of the program. -/
structure Shows (session : Session) (state : ProgramState) : Prop where
  registers : ∀ thread ∈ session.process.threads, thread.state32 = state.registers
  reads : ∀ (dst : List Byte) (src : Address), dst.length < 2 ^ 31 →
    session.breakpointState.read session.nextAccess.1.readOk dst src =
      (window state.memory src dst.length, (dst.length : Int))
  inspects : ∀ (ud : Udis86) (address : Address),
    (session.decodeAt ud address).1 = ud (window state.memory address 32)
  walks : ∀ regions thread, (MDBStack.updateState regions session thread).1 =
    (MDBStack.updateState regions (session.undebugged state.memory) thread).1
  scans : ∀ (input : ScanInput) (starts : List Address) (regions after : List MDBCodeRegion),
    Through (input.reading session.breakpointState).Returns regions starts after ↔
      Through (input.reading (.initial state.memory)).Returns regions starts after

theorem Follows.shows (follows : Follows port armed session state) : session.Shows state := by
  have hidden := follows.placed.steady.hidden
  have readOk := readOk_nextAccess follows.accesses
  have succeed : MDBStack.ReadsSucceed session := by
    intro outcome pending
    rw [follows.accesses] at pending
    cases pending
  constructor
  case registers =>
    rcases follows.sole.cached with ⟨thread, table, -, registers_eq⟩
    intro other mem
    rw [table, List.mem_singleton] at mem
    rw [mem, registers_eq]
  case reads =>
    intro dst src small
    rw [readOk, BreakpointState.read_eq_window _ _ _ small, hidden.view_eq]
  case inspects => exact follows.decodeAt_eq
  case walks =>
    intro regions thread
    apply MDBStack.updateState_congr
    refine ⟨succeed, succeed, ?_⟩
    exact hidden.view_eq
  case scans =>
    intro input starts regions after
    have enter_eq : (input.reading session.breakpointState).enter =
        (input.reading (.initial state.memory)).enter := by
      funext regions address
      apply ScanInput.enter_reading_congr
      intro i _
      rw [hidden.view_eq, (BreakpointState.hidden_initial state.memory).view_eq]
    have returns_eq : (input.reading session.breakpointState).Returns =
        (input.reading (.initial state.memory)).Returns := by
      funext regions address after
      simp only [ScanInput.Returns, ScanInput.scanProcedure, enter_eq]
    rw [returns_eq]

end Session

end RustDbg
