import RustDbg.Debugger.Leftover

/-!
# Whose return ends a step over a call

The breakpoint behind a call is hit by whichever thread gets there first, in whichever
activation of the call. `MDBDebugger::stepOver` looks neither at the thread nor at its stack
pointer: a hit tells that some thread has executed the byte behind the call. That it is the
thread of the call, come back from it, follows only where this thread hits and has made the
call once.
-/

namespace RustDbg

open Relation

/-! ## The activations of a call -/

/-- How a thread has come through a call at some address. -/
structure Activations where
  /-- The stack pointers before the activations that have not returned, the latest one first. -/
  pending : List (BitVec 32)
  /-- How often the call has been made. -/
  count : Nat

/--
A move of a program in which a thread gets behind a call only by returning from its latest
activation, with the stack pointer that it had before that.
-/
inductive CallMove (armed : Address → Prop) (port : ThreadPort) (call behind : BitVec 32) :
    FreeTarget × Activations → FreeTarget × Activations → Prop where
  /-- The thread stays where it is. -/
  | waits {before after : FreeTarget} {activations : Activations}
      (move : ThreadMove armed before after)
      (same : after.target.threadGetState32 port = before.target.threadGetState32 port) :
      CallMove armed port call behind (before, activations) (after, activations)
  | calls {before after : FreeTarget} {activations : Activations}
      {registers registers' : MDBThreadState32} (move : ThreadMove armed before after)
      (current : before.target.threadGetState32 port = some registers)
      (next : after.target.threadGetState32 port = some registers')
      (here : registers.eip = call) (inside : registers'.eip ≠ behind) :
      CallMove armed port call behind (before, activations)
        (after, ⟨registers.esp :: activations.pending, activations.count + 1⟩)
  | returns {before after : FreeTarget} {pending : List (BitVec 32)} {esp : BitVec 32}
      {count : Nat} {registers registers' : MDBThreadState32} (move : ThreadMove armed before after)
      (current : before.target.threadGetState32 port = some registers)
      (next : after.target.threadGetState32 port = some registers')
      (inside : registers.eip ≠ call) (here : registers'.eip = behind)
      (restored : registers'.esp = esp) :
      CallMove armed port call behind (before, ⟨esp :: pending, count⟩) (after, ⟨pending, count⟩)
  | executes {before after : FreeTarget} {activations : Activations}
      {registers registers' : MDBThreadState32} (move : ThreadMove armed before after)
      (current : before.target.threadGetState32 port = some registers)
      (next : after.target.threadGetState32 port = some registers')
      (elsewhere : registers.eip ≠ call) (notBehind : registers'.eip ≠ behind) :
      CallMove armed port call behind (before, activations) (after, activations)

/-- From before its first call to a stop a thread comes through a call in this way, once. -/
def CallsOnce (armed : Address → Prop) (port : ThreadPort) (call behind : BitVec 32)
    (before after : Target) (hits : List ThreadPort) : Prop :=
  ∃ pending, ReflTransGen (CallMove armed port call behind) (⟨before, []⟩, ⟨[], 0⟩)
    (⟨after, hits⟩, ⟨pending, 1⟩)

section Once

variable {armed : Address → Prop} {port : ThreadPort} {call behind esp : BitVec 32}
  {before after : FreeTarget} {activations activations' : Activations}
  {registers registers' : MDBThreadState32}

/-- A hit leaves the stack pointer, and what has been hit before stays. -/
theorem ThreadMove.esp_of_hit (move : ThreadMove armed before after)
    (current : before.target.threadGetState32 port = some registers)
    (next : after.target.threadGetState32 port = some registers') (hit : port ∈ after.hits) :
    registers'.esp = registers.esp ∧ (port ∈ before.hits ∨ armed registers.pc) := by
  rcases Target.threadGetState32_eq_some_iff.mp current with ⟨live, current⟩
  rcases Target.threadGetState32_eq_some_iff.mp next with ⟨_, next⟩
  by_cases earlier : port ∈ before.hits
  · have hitBy : before.HitBy port registers := ⟨earlier, live, current⟩
    have kept := (hitBy.move move).current
    rw [next] at kept
    rcases RegisterFile.state32.inj kept with rfl
    exact ⟨rfl, Or.inl earlier⟩
  · cases move with
    | @hit target hits other registers'' _ _ current' armedHere _ =>
        rcases List.mem_cons.mp hit with rfl | old
        · rw [current] at current'
          rcases RegisterFile.state32.inj current' with rfl
          rw [Target.registers_setRegisters live, if_pos rfl] at next
          rcases RegisterFile.state32.inj next with rfl
          exact ⟨rfl, Or.inr armedHere⟩
        · exact absurd old earlier
    | execute => exact absurd hit earlier
    | create => exact absurd hit earlier
    | exit => exact absurd hit earlier
    | account => exact absurd hit earlier

/-- Wherever a thread that makes the call once stands, its stack pointer is known behind it. -/
structure Once (port : ThreadPort) (call behind esp : BitVec 32) (free : FreeTarget)
    (activations : Activations) : Prop where
  unmade : activations.count = 0 → activations.pending = [] ∧
    ∀ registers, free.target.threadGetState32 port = some registers →
      registers.eip = call ∧ registers.esp = esp
  pending : ∀ before ∈ activations.pending, before = esp
  returned : ∀ registers, free.target.threadGetState32 port = some registers →
    activations.count ≠ 0 → registers.eip = behind → registers.esp = esp
  hit : port ∈ free.hits → ∀ registers, free.target.threadGetState32 port = some registers →
    registers.esp = esp

/-- A hit happens with the stack pointer from before the call. -/
theorem Once.hit_of_move (once : Once port call behind esp before activations)
    (only : ∀ registers : MDBThreadState32, armed registers.pc → registers.eip = behind)
    (move : ThreadMove armed before after)
    (current : before.target.threadGetState32 port = some registers)
    (next : after.target.threadGetState32 port = some registers') (hit : port ∈ after.hits) :
    registers'.esp = esp := by
  rcases move.esp_of_hit current next hit with ⟨esp_eq, earlier | armedHere⟩
  · rw [esp_eq]
    exact once.hit earlier registers current
  · rw [esp_eq]
    by_cases unmade : activations.count = 0
    · exact ((once.unmade unmade).2 registers current).2
    · exact once.returned registers current unmade (only registers armedHere)

theorem Once.move (once : Once port call behind esp before activations)
    (only : ∀ registers : MDBThreadState32, armed registers.pc → registers.eip = behind)
    (move : CallMove armed port call behind (before, activations) (after, activations'))
    (atMost : activations'.count ≤ 1) : Once port call behind esp after activations' := by
  cases move with
  | waits move same =>
      refine ⟨?_, once.pending, ?_, ?_⟩
      · rw [same]
        exact once.unmade
      · rw [same]
        exact once.returned
      · intro hit registers current
        exact once.hit_of_move only move (same.symm.trans current) current hit
  | calls move current next here inside =>
      have first : activations.count = 0 := Nat.le_zero.mp (Nat.le_of_succ_le_succ atMost)
      rcases once.unmade first with ⟨nothing, stands⟩
      refine ⟨by simp, ?_, ?_, ?_⟩
      · simp only [nothing, List.mem_singleton, forall_eq]
        exact (stands _ current).2
      · intro registers'' current' _ arrived
        rw [next] at current'
        rcases Option.some.inj current' with rfl
        exact absurd arrived inside
      · intro hit registers'' current'
        exact once.hit_of_move only move current current' hit
  | @returns _ _ pending esp' count _ _ move current next inside here restored =>
      have made : count ≠ 0 := by
        intro unmade
        cases (once.unmade unmade).1
      refine ⟨fun unmade => absurd unmade made, ?_, ?_, ?_⟩
      · intro before old
        exact once.pending before (List.mem_cons_of_mem _ old)
      · intro registers'' current' _ _
        rw [next] at current'
        rcases Option.some.inj current' with rfl
        rw [restored]
        exact once.pending esp' List.mem_cons_self
      · intro hit registers'' current'
        exact once.hit_of_move only move current current' hit
  | executes move current next elsewhere notBehind =>
      refine ⟨?_, once.pending, ?_, ?_⟩
      · intro unmade
        exact absurd ((once.unmade unmade).2 _ current).1 elsewhere
      · intro registers'' current' _ arrived
        rw [next] at current'
        rcases Option.some.inj current' with rfl
        exact absurd arrived notBehind
      · intro hit registers'' current'
        exact once.hit_of_move only move current current' hit

theorem CallMove.count_le {first second : FreeTarget × Activations}
    (move : CallMove armed port call behind first second) : first.2.count ≤ second.2.count := by
  cases move with
  | waits => exact Nat.le_refl _
  | calls => exact Nat.le_succ _
  | returns => exact Nat.le_refl _
  | executes => exact Nat.le_refl _

theorem Once.moves {first last : FreeTarget × Activations}
    (once : Once port call behind esp first.1 first.2)
    (only : ∀ registers : MDBThreadState32, armed registers.pc → registers.eip = behind)
    (moves : ReflTransGen (CallMove armed port call behind) first last)
    (atMost : last.2.count ≤ 1) : Once port call behind esp last.1 last.2 := by
  induction moves with
  | refl => exact once
  | tail _ move ih => exact (ih (Nat.le_trans move.count_le atMost)).move only move atMost

end Once

namespace Session

variable {session stopped after : Session} {ud : Udis86} {index : Nat} {thread : MDBThread}
  {hits : List ThreadPort} {address : Address}

/--
With no breakpoint enabled `stepOver` is called for a thread that stands at a call, and its wait
ends with a stop, before which the target has run under some schedule until threads have hit a
breakpoint.
-/
structure StopsAtHits (ud : Udis86) (session : Session) (index : Nat) (thread : MDBThread)
    (hits : List ThreadPort) (stopped : Session) : Prop where
  present : session.process.threads[index]? = some thread
  current : session.target.threadGetState32 thread.thread = some thread.state32
  call : (session.isCallInstruction ud thread.state32.pc).1 = true
  disarmed : ∀ address, ¬session.EnabledAt address
  schedule : Schedule (session.steppedOver ud thread).EnabledAt
    (session.steppedOver ud thread).target stopped.target hits
  trapped : hits ≠ []
  waited : (session.steppedOver ud thread).internalWait SIG_TRAP = some (.PRS_STOPPED, stopped)

/-- The stack pointer of a thread is back where it was before the call. -/
def ActivationReturned (thread : MDBThread) (after : Session) : Prop :=
  ∃ registers, after.target.threadGetState32 thread.thread = some registers ∧
    registers.esp = thread.state32.esp

/-! ## The only breakpoint -/

theorem findEnabled_of_disarmed (disarmed : ∀ address, ¬session.EnabledAt address) :
    session.findEnabled address = none := by
  cases found : session.findEnabled address with
  | none => rfl
  | some ref => exact absurd (enabledAt_of_findEnabled found) (disarmed address)

/-- Where no breakpoint is enabled none is switched off at the call. -/
theorem breakpointState_cleared (disarmed : ∀ address, ¬session.EnabledAt address) (ud : Udis86)
    (thread : MDBThread) :
    (session.cleared ud thread).breakpointState = session.breakpointState := by
  have decoded : ∀ address,
      ¬(session.isCallInstruction ud thread.state32.pc).2.EnabledAt address := disarmed
  simp only [cleared, findEnabled_of_disarmed decoded]
  rfl

theorem transientBreakpoints_steppedOver (disarmed : ∀ address, ¬session.EnabledAt address)
    (ud : Udis86) (thread : MDBThread) :
    (session.steppedOver ud thread).transientBreakpoints = session.transientBreakpoints := by
  rcases breakpointState_steppedOver session ud thread with ⟨patch, outcome, -, state⟩
  rw [breakpointState_cleared disarmed] at state
  exact congrArg (·.transientBreakpoints) state

/-- While the target runs no breakpoint is enabled but the one behind the call. -/
theorem eq_behindCall_of_enabledAt (disarmed : ∀ address, ¬session.EnabledAt address)
    (enabledAt : (session.steppedOver ud thread).EnabledAt address) :
    address = session.behindCall ud thread := by
  have cleared_eq := breakpointState_cleared disarmed ud thread
  have breakpoints_eq : (session.cleared ud thread).breakpoints = session.breakpoints :=
    congrArg (·.breakpoints) cleared_eq
  rcases breakpointState_steppedOver session ud thread with ⟨patch, outcome, -, state⟩
  rcases enabledAt with ⟨ref, breakpoint, pointed, enabled, here⟩
  simp only [state, cleared_eq, breakpoints_eq, BreakpointState.switchedOn] at pointed
  cases ref with
  | transient index =>
      exact absurd ⟨.transient index, breakpoint, pointed, enabled, here⟩ (disarmed address)
  | regular index =>
      rcases List.mem_or_eq_of_mem_set (List.mem_of_getElem? pointed) with listed | rfl
      · rcases List.mem_append.mp listed with old | new
        · rcases List.mem_iff_getElem?.mp old with ⟨position, present⟩
          exact absurd ⟨.regular position, breakpoint, present, enabled, here⟩ (disarmed address)
        · simp [List.mem_singleton.mp new] at enabled
      · exact here.symm

theorem eip_of_enabledAt (disarmed : ∀ address, ¬session.EnabledAt address)
    (registers : MDBThreadState32)
    (enabledAt : (session.steppedOver ud thread).EnabledAt registers.pc) :
    registers.eip = session.afterCall ud thread := by
  have same := eq_behindCall_of_enabledAt disarmed enabledAt
  simp only [MDBThreadState32.pc, behindCall] at same
  have narrowed := congrArg (BitVec.setWidth 32) same
  simp only [BitVec.setWidth_add _ _ (by omega : 32 ≤ 64)] at narrowed
  simpa [afterCall, MDBThreadState32.pc] using narrowed

/-- The instruction behind the call is the only one at which a thread can have hit. -/
theorem eq_afterCall_of_hitsAt (disarmed : ∀ address, ¬session.EnabledAt address)
    {before stop : Target} {port : ThreadPort} {eip : BitVec 32}
    (hit : HitsAt (session.steppedOver ud thread).EnabledAt before stop port eip) :
    eip = session.afterCall ud thread := by
  rcases hit with ⟨_, _, _, registers, _, _, _, _, rfl, here, _, _⟩
  exact eip_of_enabledAt disarmed registers here

/-- The registers are still the same when the target is let run. -/
theorem threadGetState32_steppedOver (session : Session) (ud : Udis86) (thread : MDBThread)
    (port : ThreadPort) : (session.steppedOver ud thread).target.threadGetState32 port =
      session.target.threadGetState32 port := by
  simp only [steppedOver, stepOverToWait]
  generalize decoded_eq : (session.isCallInstruction ud thread.state32.pc).2 = decoded
  have registers_eq : decoded.target.threadGetState32 port =
      session.target.threadGetState32 port := by
    rw [← decoded_eq]
    rfl
  rw [← registers_eq]
  cases decoded.findEnabled thread.state32.pc with
  | none =>
      rcases resumedAll _ with ⟨target, same, resumed⟩
      rw [resumed]
      exact threadGetState32_congr same.live (same.registers port)
  | some ref =>
      rcases resumedAll _ with ⟨target, same, resumed⟩
      rw [resumed]
      exact threadGetState32_congr same.live (same.registers port)

namespace StopsAtHits

/-- `stepOver` returns at the stop and leaves the target as that has. -/
theorem stepOver_eq (stopsAt : StopsAtHits ud session index thread hits stopped) :
    ∃ after, session.stepOver ud index = some (true, after) ∧ after.target = stopped.target := by
  have decoded : ∀ address,
      ¬(session.isCallInstruction ud thread.state32.pc).2.EnabledAt address := stopsAt.disarmed
  have waited := stopsAt.waited
  simp only [steppedOver] at waited
  have disabled : ¬stopped.transientBreakpoints.any (·.enabled) := by
    rw [(SameSettings.internalWait stopsAt.waited).transientBreakpoints,
      transientBreakpoints_steppedOver stopsAt.disarmed]
    intro enabled
    rcases List.any_eq_true.mp enabled with ⟨breakpoint, listed, enabled⟩
    rcases List.mem_iff_getElem?.mp listed with ⟨position, present⟩
    exact stopsAt.disarmed breakpoint.address
      ⟨.transient position, breakpoint, present, enabled, rfl⟩
  have deleted : stopped.deleteTransientBreakpoints =
      some { stopped with transientBreakpoints := [] } := if_neg disabled
  refine ⟨{ stopped with transientBreakpoints := [] }, ?_, rfl⟩
  simp [stepOver, stopsAt.present, stopsAt.call, waited, findEnabled_of_disarmed decoded, deleted]

theorem activationReturned (stopsAt : StopsAtHits ud session index thread hits stopped)
    (hit : thread.thread ∈ hits)
    (callsOnce : CallsOnce (session.steppedOver ud thread).EnabledAt thread.thread
      thread.state32.eip (session.afterCall ud thread) (session.steppedOver ud thread).target
      stopped.target hits) :
    ∃ registers, stopped.target.threadGetState32 thread.thread = some registers ∧
      registers.esp = thread.state32.esp := by
  rcases callsOnce with ⟨pending, moves⟩
  have start : Once thread.thread thread.state32.eip (session.afterCall ud thread)
      thread.state32.esp ⟨(session.steppedOver ud thread).target, []⟩ ⟨[], 0⟩ := by
    refine ⟨fun _ => ⟨rfl, ?_⟩, by simp, fun _ _ made => absurd rfl made, by simp⟩
    intro registers current
    rw [threadGetState32_steppedOver, stopsAt.current] at current
    rcases Option.some.inj current with rfl
    exact ⟨rfl, rfl⟩
  have once := start.moves (eip_of_enabledAt stopsAt.disarmed) moves (Nat.le_refl 1)
  rcases stopsAt.schedule.exists_hitsAt hit with ⟨_, hitsAt⟩
  rcases hitsAt.stands with ⟨live, registers, current, -⟩
  have registers_eq := Target.threadGetState32_eq_some_iff.mpr ⟨live, current⟩
  exact ⟨registers, registers_eq, once.hit hit registers registers_eq⟩

end StopsAtHits

/--
When threads have hit a breakpoint `stepOver` returns at that stop, and each of them has executed
the byte behind the call. The call has returned if its own thread is among them, as it is when
there is no other one, and the program has not made the call again before.
-/
theorem stepOver_stops_at_hits
    (stopsAt : StopsAtHits ud session index thread hits stopped) :
    ∃ after, session.stepOver ud index = some (true, after) ∧
      after.target = stopped.target ∧
      (∀ port ∈ hits, HitsAt (session.steppedOver ud thread).EnabledAt
        (session.steppedOver ud thread).target after.target port
          (session.afterCall ud thread)) ∧
      (after.target.live = [thread.thread] → thread.thread ∈ hits) ∧
      (thread.thread ∈ hits →
        CallsOnce (session.steppedOver ud thread).EnabledAt thread.thread thread.state32.eip
          (session.afterCall ud thread) (session.steppedOver ud thread).target after.target
            hits → ActivationReturned thread after) := by
  rcases stopsAt.stepOver_eq with ⟨after, returned, target⟩
  have hitsAt : ∀ port ∈ hits, HitsAt (session.steppedOver ud thread).EnabledAt
      (session.steppedOver ud thread).target after.target port (session.afterCall ud thread) := by
    intro port hit
    rcases stopsAt.schedule.exists_hitsAt hit with ⟨eip, hitsAt⟩
    rcases eq_afterCall_of_hitsAt stopsAt.disarmed hitsAt with rfl
    rw [target]
    exact hitsAt
  refine ⟨after, returned, target, hitsAt, ?_, ?_⟩
  · intro alone
    rcases List.exists_mem_of_ne_nil hits stopsAt.trapped with ⟨port, hit⟩
    have live := (hitsAt port hit).stands.1
    rw [alone, List.mem_singleton] at live
    rwa [← live]
  · intro hit callsOnce
    rw [target] at callsOnce
    rw [ActivationReturned, target]
    exact stopsAt.activationReturned hit callsOnce

theorem stopsAtHits_atCall :
    StopsAtHits callDecoder atCall 0 callingThread [1] stoppedAfterCall where
  present := rfl
  current := rfl
  call := rfl
  disarmed := by
    rintro address ⟨_ | _, breakpoint, pointed, -⟩
    · cases pointed
    · cases pointed
  schedule := .tail (.tail (.single enters_crossCall) leaves_crossCall) hits_crossCall
  trapped := List.cons_ne_nil _ _
  waited := internalWait_freedAtCall

/-- The thread enters the call, leaves it and hits, with its stack pointer as it was. -/
theorem callsOnce_crossCall : CallsOnce freedAtCall.EnabledAt 1 0x1000#32 0x1005#32
    freedAtCall.target stoppedAfterCall.target [1] := by
  have standing : freedAtCall.target.threadGetState32 1 =
      some (registersWith 0x1000#32 0x8000#32) := rfl
  have entered : (enterCall freedAtCall.target).threadGetState32 1 =
      some (registersWith 0x2000#32 0x7FFC#32) := rfl
  have left : (leaveCall (enterCall freedAtCall.target)).threadGetState32 1 =
      some (registersWith 0x1005#32 0x8000#32) := rfl
  have hit : (crossCall freedAtCall.target).threadGetState32 1 =
      some (registersWith 0x1006#32 0x8000#32) := rfl
  have calls : CallMove freedAtCall.EnabledAt 1 0x1000#32 0x1005#32
      (⟨freedAtCall.target, []⟩, ⟨[], 0⟩)
      (⟨enterCall freedAtCall.target, []⟩, ⟨[0x8000#32], 1⟩) :=
    .calls enters_crossCall standing entered rfl (by decide)
  have returns : CallMove freedAtCall.EnabledAt 1 0x1000#32 0x1005#32
      (⟨enterCall freedAtCall.target, []⟩, ⟨[0x8000#32], 1⟩)
      (⟨leaveCall (enterCall freedAtCall.target), []⟩, ⟨[], 1⟩) :=
    .returns leaves_crossCall entered left (by decide) rfl rfl
  have hits : CallMove freedAtCall.EnabledAt 1 0x1000#32 0x1005#32
      (⟨leaveCall (enterCall freedAtCall.target), []⟩, ⟨[], 1⟩)
      (⟨crossCall freedAtCall.target, [1]⟩, ⟨[], 1⟩) :=
    .executes hits_crossCall left hit (by decide) (by decide)
  exact ⟨[], .tail (.tail (.single calls) returns) hits⟩

/-- A call that is made once, by the only thread: it has returned at the stop. -/
theorem stepOver_stops_at_hits_atCall :
    ∃ after, atCall.stepOver callDecoder 0 = some (true, after) ∧
      HitsAt freedAtCall.EnabledAt freedAtCall.target after.target 1 0x1005#32 ∧
      ActivationReturned callingThread after := by
  rcases stepOver_stops_at_hits stopsAtHits_atCall with
    ⟨after, returned, target, hitsAt, alone, activation⟩
  have hit : 1 ∈ [1] := alone (by rw [target]; rfl)
  refine ⟨after, returned, ?_, activation hit ?_⟩
  · rw [← afterCall_atCall]
    exact hitsAt 1 hit
  · rw [target, afterCall_atCall]
    exact callsOnce_crossCall

/-! ## A call another thread, or a deeper activation, comes back from -/

/-- At `0xFFD` a `loop 0x1000`, a `ret`, and at `0x1000` a `call 0xFFD`, a `nop` and a `ret`. -/
def sharedCallMemory : Memory :=
  store (fun _ => 0x90#8) 0x0FFD#64
    [0xE2#8, 0x01#8, 0xC3#8, 0xE8#8, 0xF8#8, 0xFF#8, 0xFF#8, 0xFF#8, 0x90#8, 0xC3#8]

def registersLooping (eip esp ecx : BitVec 32) : MDBThreadState32 :=
  { registersAt eip with esp, ecx }

/-- One thread is at the call at `0x1000`, the other at the instruction behind it. -/
def sharedCallTask : Target where
  memory := sharedCallMemory
  live := [1, 2]
  thread port := ⟨.state32 (if port = 1 then registersLooping 0x1000#32 0x8000#32 2#32
    else registersWith 0x1005#32 0x9000#32), ⟨.running, 0⟩⟩
  suspendCount := 0
  pidKnown := true

def sharingThread : MDBThread :=
  ⟨1, ⟨.running, 0⟩, registersLooping 0x1000#32 0x8000#32 2#32, default⟩

/-- A session for the first thread with a target that runs in the given way. -/
def atSharedCall (run : Target → Target) : Session :=
  { attached sharedCallTask [fun target => some (run target, .stopped SIG_TRAP none)] with
    process := {
      running := true
      is64Bit := false
      threads := [sharingThread,
        ⟨2, ⟨.running, 0⟩, registersWith 0x1005#32 0x9000#32, default⟩]
      uninitialized := fun _ => default } }

def freedAtSharedCall (run : Target → Target) : Session :=
  (atSharedCall run).steppedOver callDecoder sharingThread

def stoppedAfterSharedCall (run : Target → Target) : Session :=
  ((freedAtSharedCall run).report [] (run (freedAtSharedCall run).target)
    (.stopped SIG_TRAP none)).gatherThreads |>.noteReturn .PRS_STOPPED

/-- The first thread makes the call. -/
def entersShared (target : Target) : Target :=
  callTo 1 (registersLooping 0x0FFD#32 0x7FFC#32 2#32) target

/-- The first thread enters the call and the second runs into the breakpoint. -/
def otherPasses (target : Target) : Target :=
  (entersShared target).setRegisters 2 (registersWith 0x1006#32 0x9000#32)

/-- The call leads to itself a second time. -/
def entersAgain (target : Target) : Target :=
  callTo 1 (registersLooping 0x0FFD#32 0x7FF8#32 1#32)
    ((entersShared target).setRegisters 1 (registersLooping 0x1000#32 0x7FFC#32 1#32))

/-- The second activation comes back to the instruction behind the call. -/
def deeperReturns (target : Target) : Target :=
  ((entersAgain target).setRegisters 1 (registersLooping 0x0FFF#32 0x7FF8#32 0#32)).setRegisters 1
    (registersLooping 0x1005#32 0x7FFC#32 0#32)

def recurses (target : Target) : Target :=
  (deeperReturns target).setRegisters 1 (registersLooping 0x1006#32 0x7FFC#32 0#32)

theorem disarmed_atSharedCall (run : Target → Target) (address : Address) :
    ¬(atSharedCall run).EnabledAt address := by
  rintro ⟨_ | _, breakpoint, pointed, -⟩
  · cases pointed
  · cases pointed

theorem enabledAt_freedAtSharedCall (run : Target → Target) :
    (freedAtSharedCall run).EnabledAt 0x1005#64 := by
  have breakpoints : (freedAtSharedCall run).breakpointState =
      (freedAtSharedCall id).breakpointState := rfl
  have enabled : (freedAtSharedCall id).EnabledAt 0x1005#64 :=
    enabledAt_steppedOver (atSharedCall id) callDecoder sharingThread
  rcases enabled with ⟨ref, breakpoint, pointed, isEnabled, here⟩
  exact ⟨ref, breakpoint, by rwa [breakpoints], isEnabled, here⟩

theorem entersShared_moves (run : Target → Target) :
    ThreadMove (freedAtSharedCall run).EnabledAt ⟨(freedAtSharedCall run).target, []⟩
      ⟨entersShared (freedAtSharedCall run).target, []⟩ := by
  have target_eq : (freedAtSharedCall run).target = (freedAtSharedCall id).target := rfl
  rw [target_eq]
  apply move_callTo (by decide) rfl
  decide

theorem stopsAtHits_otherPasses : StopsAtHits callDecoder (atSharedCall otherPasses) 0
    sharingThread [2] (stoppedAfterSharedCall otherPasses) where
  present := rfl
  current := rfl
  call := rfl
  disarmed := disarmed_atSharedCall otherPasses
  schedule := by
    have live : 2 ∈ (entersShared (freedAtSharedCall otherPasses).target).live := by decide
    have patched : (entersShared (freedAtSharedCall otherPasses).target).memory
        (registersWith 0x1005#32 0x9000#32).pc = int_3 := by
      decide
    have hits : ThreadMove (freedAtSharedCall otherPasses).EnabledAt
        ⟨entersShared (freedAtSharedCall otherPasses).target, []⟩
        ⟨otherPasses (freedAtSharedCall otherPasses).target, [2]⟩ :=
      .hit live List.not_mem_nil rfl (enabledAt_freedAtSharedCall _) patched
    exact .tail (.single (entersShared_moves _)) hits
  trapped := List.cons_ne_nil _ _
  waited := rfl

theorem stopsAtHits_recurses : StopsAtHits callDecoder (atSharedCall recurses) 0
    sharingThread [1] (stoppedAfterSharedCall recurses) where
  present := rfl
  current := rfl
  call := rfl
  disarmed := disarmed_atSharedCall recurses
  schedule := by
    have loops : ThreadMove (freedAtSharedCall recurses).EnabledAt
        ⟨entersShared (freedAtSharedCall recurses).target, []⟩
        ⟨(entersShared (freedAtSharedCall recurses).target).setRegisters 1
          (registersLooping 0x1000#32 0x7FFC#32 1#32), []⟩ := by
      apply move_setRegisters (by decide) rfl
      decide
    have again : ThreadMove (freedAtSharedCall recurses).EnabledAt
        ⟨(entersShared (freedAtSharedCall recurses).target).setRegisters 1
          (registersLooping 0x1000#32 0x7FFC#32 1#32), []⟩
        ⟨entersAgain (freedAtSharedCall recurses).target, []⟩ := by
      apply move_callTo (by decide) rfl
      decide
    have leaves : ThreadMove (freedAtSharedCall recurses).EnabledAt
        ⟨entersAgain (freedAtSharedCall recurses).target, []⟩
        ⟨(entersAgain (freedAtSharedCall recurses).target).setRegisters 1
          (registersLooping 0x0FFF#32 0x7FF8#32 0#32), []⟩ := by
      apply move_setRegisters (by decide) rfl
      decide
    have returns : ThreadMove (freedAtSharedCall recurses).EnabledAt
        ⟨(entersAgain (freedAtSharedCall recurses).target).setRegisters 1
          (registersLooping 0x0FFF#32 0x7FF8#32 0#32), []⟩
        ⟨deeperReturns (freedAtSharedCall recurses).target, []⟩ := by
      apply move_setRegisters (by decide) rfl
      decide
    have live : 1 ∈ (deeperReturns (freedAtSharedCall recurses).target).live := by decide
    have patched : (deeperReturns (freedAtSharedCall recurses).target).memory
        (registersLooping 0x1005#32 0x7FFC#32 0#32).pc = int_3 := by
      decide
    have hits : ThreadMove (freedAtSharedCall recurses).EnabledAt
        ⟨deeperReturns (freedAtSharedCall recurses).target, []⟩
        ⟨recurses (freedAtSharedCall recurses).target, [1]⟩ :=
      .hit live List.not_mem_nil rfl (enabledAt_freedAtSharedCall _) patched
    exact .tail (.tail (.tail (.tail (.tail (.single (entersShared_moves _)) loops) again) leaves)
      returns) hits
  trapped := List.cons_ne_nil _ _
  waited := rfl

/-- `stepOver` returns while the call has not, for another thread and for a deeper activation. -/
theorem stepOver_returns_early :
    (StopsAtHits callDecoder (atSharedCall otherPasses) 0 sharingThread [2]
        (stoppedAfterSharedCall otherPasses) ∧
      ∃ after, (atSharedCall otherPasses).stepOver callDecoder 0 = some (true, after) ∧
        ¬ActivationReturned sharingThread after) ∧
    (StopsAtHits callDecoder (atSharedCall recurses) 0 sharingThread [1]
        (stoppedAfterSharedCall recurses) ∧
      ∃ after, (atSharedCall recurses).stepOver callDecoder 0 = some (true, after) ∧
        ¬ActivationReturned sharingThread after) := by
  rcases stopsAtHits_otherPasses.stepOver_eq with ⟨passed, passes, passedTarget⟩
  rcases stopsAtHits_recurses.stepOver_eq with ⟨recursed, recursion, recursedTarget⟩
  refine ⟨⟨stopsAtHits_otherPasses, passed, passes, ?_⟩,
    ⟨stopsAtHits_recurses, recursed, recursion, ?_⟩⟩
  · rintro ⟨registers, current, esp⟩
    rw [passedTarget] at current
    obtain rfl : registersLooping 0x0FFD#32 0x7FFC#32 2#32 = registers := Option.some.inj current
    cases esp
  · rintro ⟨registers, current, esp⟩
    rw [recursedTarget] at current
    obtain rfl : registersLooping 0x1006#32 0x7FFC#32 0#32 = registers := Option.some.inj current
    cases esp

end Session

end RustDbg
