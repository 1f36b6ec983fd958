import RustDbg.Code.CallGraph
import RustDbg.Code.Record
import RustDbg.Debugger.Invisibility

/-!
# Reading code while breakpoints are set

`MDBCode::scanProcedure`, `MDBCodeRegion::disassemble` and the inspection of an instruction read
code through `MDBDebugger::read`. As long as no access fails and the program does not write to its
code, they find in every state of a run what they would find without a debugger.
-/

namespace RustDbg

/-- The scan of a memory with breakpoints, all of whose reads succeed. -/
def ScanInput.reading (input : ScanInput) (state : BreakpointState) : ScanInput :=
  { input with state, readable := fun _ => true }

/-- What `MDBCodeRegion::disassemble` reads into the buffer that it has allocated. -/
def MDBCodeRegion.localBuffer (region : MDBCodeRegion) (session : Session)
    (unused : Nat → Byte) : List Byte :=
  (session.breakpointState.read session.nextAccess.1.readOk
    ((List.range region.size).map unused) region.address).1

namespace ScanInput

open Traversal

variable {input plain : ScanInput} {starts : List Address} {regions after : List MDBCodeRegion}
  {address : Address}

/-! ## Scans that agree -/

theorem buffer_reading (input : ScanInput) (state : BreakpointState) (address : Address) :
    (input.reading state).buffer address = window state.view address bufferSize := by
  have small : bufferSize < 2 ^ 31 := lt_of_le_bufferSize (Nat.le_refl _)
  simp only [buffer, reading]
  rw [BreakpointState.read_eq_window _ _ _ (by simpa using small)]
  simp only [List.length_map, List.length_range]

theorem enter_reading_congr {state other : BreakpointState}
    (agree : ∀ i < bufferSize, state.view (address + BitVec.ofNat 64 i) =
      other.view (address + BitVec.ofNat 64 i)) (regions : List MDBCodeRegion) :
    (input.reading state).enter regions address = (input.reading other).enter regions address := by
  have window_eq := window_congr agree
  have procedure_eq : (input.reading state).procedure address =
      (input.reading other).procedure address := by
    simp only [procedure, buffer_reading, window_eq]
    rfl
  simp only [enter, region, procedure_eq]
  rfl

theorem callees_reachable (regions : List MDBCodeRegion) (address : Address)
    (entered : List MDBCodeRegion) (calls : List Address)
    (reachable : Procedure.Reachable input starts address)
    (enters : input.enter regions address = some (entered, calls)) :
    ∀ callee ∈ calls, Procedure.Reachable input starts callee := by
  rcases enter_eq_some_iff.mp enters with ⟨-, -, rfl⟩
  exact fun _ mem => reachable.callee mem

/-- Every region is that of a procedure that can be reached. -/
theorem exists_reachable_of_mem {region : MDBCodeRegion}
    (path : Through input.Returns [] starts regions) (mem : region ∈ regions) :
    Procedure.Reachable input starts region.address ∧ region.size ≤ bufferSize := by
  rcases (mem_iff_exists_records path).mp mem with ⟨call, records⟩
  rcases size_region records.recorded with ⟨address_eq, -, fits⟩
  rw [address_eq]
  refine ⟨?_, fits⟩
  exact records.made.within callees_reachable fun _ mem => .of_mem mem

/-! ## Over a run -/

/-- A program does not write to what scanning decodes. -/
def Untouched (input : ScanInput) (written : Address → Prop) (starts : List Address) : Prop :=
  ∀ address, Procedure.Reachable input starts address →
    ∀ i < bufferSize, ¬written (address + BitVec.ofNat 64 i)

end ScanInput

namespace Session

open ScanInput Traversal

variable {written : Address → Prop} {original : Memory} {session last : Session} {ud : Udis86}
  {input : ScanInput} {starts : List Address}

namespace ReadsOriginal

variable (reads : ReadsOriginal written original session)

include reads

theorem window_view {address : Address} {size : Nat}
    (untouched : ∀ i < size, ¬written (address + BitVec.ofNat 64 i)) :
    window session.breakpointState.view address size = window original address size :=
  window_congr fun i inside => reads.view _ (untouched i inside)

theorem enter_eq (untouched : (input.reading (.initial original)).Untouched written starts)
    {address : Address}
    (reachable : Procedure.Reachable (input.reading (.initial original)) starts address)
    (regions : List MDBCodeRegion) :
    (input.reading session.breakpointState).enter regions address =
      (input.reading (.initial original)).enter regions address := by
  apply enter_reading_congr
  intro i inside
  rw [reads.view _ (untouched address reachable i inside),
    (BreakpointState.hidden_initial original).view_eq]

/-- Scanning is as without a debugger. -/
theorem through_iff (untouched : (input.reading (.initial original)).Untouched written starts)
    {regions after : List MDBCodeRegion} :
    Through (input.reading session.breakpointState).Returns regions starts after ↔
      Through (input.reading (.initial original)).Returns regions starts after := by
  have within : ∀ start ∈ starts,
      Procedure.Reachable (input.reading (.initial original)) starts start := fun _ => .of_mem
  have agree : ∀ regions address,
      Procedure.Reachable (input.reading (.initial original)) starts address →
        (input.reading session.breakpointState).enter regions address =
          (input.reading (.initial original)).enter regions address :=
    fun regions _ reachable => reads.enter_eq untouched reachable regions
  constructor
  · intro path
    refine Through.returns_congr ?_ (fun _ _ reachable => (agree _ _ reachable).symm) path within
    intro regions address entered calls reachable enters
    rw [agree regions address reachable] at enters
    exact callees_reachable regions address entered calls reachable enters
  · intro path
    exact path.returns_congr callees_reachable agree within

theorem localBuffer_eq {region : MDBCodeRegion} (unused : Nat → Byte)
    (small : region.size < 2 ^ 31)
    (untouched : ∀ i < region.size, ¬written (region.address + BitVec.ofNat 64 i)) :
    region.localBuffer session unused = window original region.address region.size := by
  simp only [MDBCodeRegion.localBuffer, readOk_nextAccess reads.accesses]
  rw [BreakpointState.read_eq_window _ _ _ (by simpa using small)]
  simpa using reads.window_view untouched

theorem decodeAt_eq {address : Address}
    (untouched : ∀ i < 32, ¬written (address + BitVec.ofNat 64 i)) :
    (session.decodeAt ud address).1 = ud (window original address 32) := by
  simp only [decodeAt, readOk_nextAccess reads.accesses]
  rw [BreakpointState.read_eq_window _ _ _ (by simp)]
  simp only [List.length_map, List.length_range]
  exact congrArg ud (reads.window_view untouched)

end ReadsOriginal

/--
In every run of commands of a program that does not write to its code, scanning records the
regions that it would record without a debugger. What is disassembled of them are the original
bytes, and so is what instructions in them are inspected by.
-/
theorem scans_of_run {start : Session} {commands : List Command}
    (hidden : BreakpointState.Hidden original start.breakpointState)
    (accesses : start.accesses = [])
    (events : ∀ event ∈ start.events, event.WritesOnly written)
    (untouched : (input.reading (.initial original)).Untouched written starts)
    (reached : Transition.run (perform ud) start commands = some last) :
    (∀ regions after, Through (input.reading last.breakpointState).Returns regions starts after ↔
      Through (input.reading (.initial original)).Returns regions starts after) ∧
    ∀ regions, Through (input.reading last.breakpointState).Returns [] starts regions →
      ∀ region ∈ regions,
        (∀ unused, region.localBuffer last unused = window original region.address region.size) ∧
        ∀ decoder i, i + 32 ≤ bufferSize →
          (last.decodeAt decoder (region.address + BitVec.ofNat 64 i)).1 =
            decoder (window original (region.address + BitVec.ofNat 64 i) 32) := by
  have reads := ReadsOriginal.run hidden accesses events reached
  refine ⟨fun _ _ => reads.through_iff untouched, ?_⟩
  intro regions path region mem
  rcases exists_reachable_of_mem ((reads.through_iff untouched).mp path) mem with ⟨reachable, fits⟩
  have clear := untouched region.address reachable
  constructor
  · intro unused
    apply reads.localBuffer_eq unused (lt_of_le_bufferSize fits)
    exact fun i inside => clear i (by omega)
  · intro decoder i inside
    apply reads.decodeAt_eq
    intro j near
    rw [BitVec.add_assoc, ← BitVec.ofNat_add]
    exact clear (i + j) (by omega)

/-- A thread stands at a breakpoint on the call that the first of two procedures begins with. -/
def standingAtCall : Session :=
  { oneStanding with
    target := { oneStanding.target with memory := Function.update mutualCalls 0x1000#64 int_3 }
    breakpoints := [⟨0x1000#64, 0xE8#8, true, none⟩] }

theorem hidden_standingAtCall :
    BreakpointState.Hidden mutualCalls standingAtCall.breakpointState := by
  refine ⟨rfl, ?_, ?_⟩
  · intro site mem
    rcases List.mem_singleton.mp mem with rfl
    rfl
  · intro address uncovered
    apply Function.update_of_ne
    exact (uncovered (0x1000#64, 0xE8#8) (List.mem_singleton_self _)).symm

theorem scans_of_run_standingAtCall :
    ∃ last, Transition.run (perform fun _ => ⟨5, .UD_Icall⟩) standingAtCall [.step 0] = some last ∧
      (∀ regions after, Through ((onlyMemory mutualCalls).reading last.breakpointState).Returns
          regions [0x1000#64] after ↔
        Through ((onlyMemory mutualCalls).reading (.initial mutualCalls)).Returns
          regions [0x1000#64] after) ∧
      ∀ regions, Through ((onlyMemory mutualCalls).reading last.breakpointState).Returns
          [] [0x1000#64] regions → ∀ region ∈ regions,
        (∀ unused, region.localBuffer last unused =
          window mutualCalls region.address region.size) ∧
        ∀ decoder i, i + 32 ≤ bufferSize →
          (last.decodeAt decoder (region.address + BitVec.ofNat 64 i)).1 =
            decoder (window mutualCalls (region.address + BitVec.ofNat 64 i) 32) := by
  obtain ⟨last, reached⟩ : ∃ last, Transition.run (perform fun _ => ⟨5, .UD_Icall⟩)
      standingAtCall [.step 0] = some last :=
    Option.isSome_iff_exists.mp (by decide)
  have events : ∀ event ∈ standingAtCall.events, event.WritesOnly fun _ => False := by
    intro event mem target after outcome reported address _
    rcases List.mem_singleton.mp mem with rfl
    rcases Prod.mk.inj (Option.some.inj reported) with ⟨rfl, -⟩
    exact congrFun (Target.memory_modifyThread ..) address
  exact ⟨last, reached,
    scans_of_run hidden_standingAtCall rfl events (fun _ _ _ _ no => no) reached⟩

end Session

end RustDbg
