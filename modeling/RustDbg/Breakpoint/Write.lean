import RustDbg.Breakpoint.Hiding

/-!
# Writing where there are breakpoints

`MDBDebugger::write` goes to the raw memory and `MDBDebugger::read` comes back through
the saved bytes. A write that meets an enabled breakpoint replaces its `0xCC` and leaves
the byte saved for it, so the next read does not show what was written, and disabling
the breakpoint undoes it.
-/

namespace RustDbg.BreakpointState

variable {state next : BreakpointState} {dst src address : Address} {bytes : List Byte}
  {byte : Byte} {index : Nat} {breakpoint : MDBBreakpoint}

/-- The byte that is written to an address, if any. -/
def writtenByte (dst : Address) (bytes : List Byte) (address : Address) : Option Byte :=
  bytes[(address - dst).toNat]?

def afterWrite (state : BreakpointState) (dst : Address) (bytes : List Byte) : BreakpointState :=
  { state with memory := (write state.memory .success dst bytes).1 }

/-- The bytes read from `src`, with those written in place of the earlier ones. -/
def overwritten (dst : Address) (bytes : List Byte) (src : Address) (buffer : List Byte) :
    List Byte :=
  buffer.mapIdx fun i byte => (writtenByte dst bytes (src + BitVec.ofNat 64 i)).getD byte

/-- What a debugger expects of a write, until all breakpoints are disabled. -/
structure WriteAgrees (state : BreakpointState) (dst : Address) (bytes : List Byte) : Prop where
  reads : ∀ buffer src, (state.afterWrite dst bytes).read true buffer src =
    (overwritten dst bytes src (state.read true buffer src).1, (state.read true buffer src).2)
  armed : ∀ breakpoint ∈ state.breakpoints, breakpoint.enabled = true →
    (writtenByte dst bytes breakpoint.address).isSome →
      (state.afterWrite dst bytes).memory breakpoint.address = int_3
  kept : ∀ calls final,
    Transition.run (perform .success) (state.afterWrite dst bytes) calls = some final →
      (∀ breakpoint ∈ final.breakpoints, breakpoint.enabled = false) →
        ∀ address byte, writtenByte dst bytes address = some byte → final.memory address = byte

theorem memory_afterWrite : (state.afterWrite dst bytes).memory address =
    (writtenByte dst bytes address).getD (state.memory address) := by
  rfl

/-! ## Reading back -/

theorem window_afterWrite (size : Nat) : window (state.afterWrite dst bytes).memory src size =
    overwritten dst bytes src (window state.memory src size) := by
  apply List.ext_getElem
  · simp [overwritten]
  · intro i bound _
    simp [overwritten, memory_afterWrite]

theorem hidePatch_overwritten (size : Nat) (buffer : List Byte)
    (same : breakpoint.enabled = true →
      ∀ byte, writtenByte dst bytes breakpoint.address = some byte → breakpoint.patch = byte) :
    hidePatch src size (overwritten dst bytes src buffer) breakpoint =
      overwritten dst bytes src (hidePatch src size buffer breakpoint) := by
  by_cases enabled : breakpoint.enabled
  · simp only [hidePatch, enabled, if_true]
    split
    · rename_i inside
      have here : src + BitVec.ofNat 64 (breakpoint.address - src).toNat = breakpoint.address :=
        (window_address_eq_iff (BitVec.isLt _)).mpr rfl
      have patch : (writtenByte dst bytes breakpoint.address).getD breakpoint.patch =
          breakpoint.patch := by
        cases written : writtenByte dst bytes breakpoint.address with
        | none => rfl
        | some byte => exact (same enabled byte written).symm
      rw [toNat_offset inside.1]
      apply List.ext_getElem
      · simp [overwritten]
      · intro i _ _
        simp only [overwritten, List.getElem_set, List.getElem_mapIdx]
        split
        · rename_i position
          simp only [← position, here, patch]
        · rfl
    · rfl
  · simp [hidePatch, enabled]

theorem read_afterWrite (same : ∀ breakpoint ∈ state.breakpoints, breakpoint.enabled = true →
      ∀ byte, writtenByte dst bytes breakpoint.address = some byte → breakpoint.patch = byte)
    (buffer : List Byte) (src : Address) : (state.afterWrite dst bytes).read true buffer src =
      (overwritten dst bytes src (state.read true buffer src).1,
        (state.read true buffer src).2) := by
  have hide : ∀ (breakpoints : List MDBBreakpoint) (buffer : List Byte) (size : Nat),
      (∀ breakpoint ∈ breakpoints, breakpoint ∈ state.breakpoints) →
        breakpoints.foldl (hidePatch src size) (overwritten dst bytes src buffer) =
          overwritten dst bytes src (breakpoints.foldl (hidePatch src size) buffer) := by
    intro breakpoints buffer size inTable
    induction breakpoints generalizing buffer with
    | nil => rfl
    | cons breakpoint rest ih =>
        rw [List.foldl_cons, List.foldl_cons, ← ih]
        · rw [hidePatch_overwritten size buffer (same breakpoint (inTable _ List.mem_cons_self))]
        · intro other otherMem
          apply inTable other
          exact List.mem_cons_of_mem _ otherMem
  simp only [read, machVmReadOverwrite, if_true, window_afterWrite]
  rw [Prod.mk.injEq]
  exact ⟨hide _ _ _ fun _ present => present, rfl⟩

/-! ## Disabling the breakpoints -/

/-- The byte is at the address, or saved by every enabled breakpoint there. -/
structure Saves (address : Address) (byte : Byte) (state : BreakpointState) : Prop where
  noTransient : state.transientBreakpoints = []
  saved : ∀ site ∈ sites state.breakpoints, site.1 = address → site.2 = byte
  covered : state.memory address = byte ∨ ∃ site ∈ sites state.breakpoints, site.1 = address

namespace Saves

theorem view_eq (saves : Saves address byte state) : state.view address = byte := by
  exact Overlay.overlay_apply_eq saves.saved saves.covered

theorem switchedOn (saves : Saves address byte state)
    (present : state.breakpoints[index]? = some breakpoint)
    (disabled : breakpoint.enabled = false) :
    Saves address byte (state.switchedOn .success index breakpoint) := by
  have newSite : (breakpoint.address, state.view breakpoint.address) ∈
      sites (state.switchedOn .success index breakpoint).breakpoints := by
    refine mem_sites.mpr ⟨_, List.mem_set (List.getElem?_eq_some_iff.mp present).1 _, rfl, ?_⟩
    rw [← savedPatch_of_ok]
    rfl
  refine ⟨saves.noTransient, ?_, ?_⟩
  · intro site siteMem here
    rcases mem_sites.mp siteMem with ⟨switched, mem, enabled, rfl⟩
    rcases List.mem_or_eq_of_mem_set mem with old | rfl
    · exact saves.saved _ (mem_sites.mpr ⟨switched, old, enabled, rfl⟩) here
    · simp only [AccessOutcome.readOk_success, savedPatch_of_ok] at here ⊢
      rw [here]
      exact saves.view_eq
  · by_cases here : breakpoint.address = address
    · right
      exact ⟨_, newSite, here⟩
    · rcases saves.covered with untouched | ⟨site, siteMem, siteHere⟩
      · left
        simp only [BreakpointState.switchedOn, AccessOutcome.writes_success, if_true]
        rw [Function.update_of_ne (Ne.symm here)]
        exact untouched
      · right
        rcases mem_sites.mp siteMem with ⟨other, mem, enabled, rfl⟩
        refine ⟨_, mem_sites.mpr ⟨other, mem_set_of_ne present mem ?_, enabled, rfl⟩, siteHere⟩
        rintro rfl
        exact here siteHere

theorem switchedOff (saves : Saves address byte state)
    (present : state.breakpoints[index]? = some breakpoint) (enabled : breakpoint.enabled = true) :
    Saves address byte (state.switchedOff .success index breakpoint) := by
  refine ⟨saves.noTransient, ?_, ?_⟩
  · intro site siteMem here
    rcases mem_sites.mp siteMem with ⟨other, mem, otherEnabled, rfl⟩
    rcases List.mem_or_eq_of_mem_set mem with old | rfl
    · exact saves.saved _ (mem_sites.mpr ⟨other, old, otherEnabled, rfl⟩) here
    · simp at otherEnabled
  · by_cases here : breakpoint.address = address
    · left
      have site : (breakpoint.address, breakpoint.patch) ∈ sites state.breakpoints :=
        mem_sites.mpr ⟨breakpoint, List.mem_of_getElem? present, enabled, rfl⟩
      simp only [BreakpointState.switchedOff, AccessOutcome.writes_success, if_true]
      simp only [← here, Function.update_self]
      exact saves.saved _ site here
    · rcases saves.covered with untouched | ⟨site, siteMem, siteHere⟩
      · left
        simp only [BreakpointState.switchedOff, AccessOutcome.writes_success, if_true]
        rw [Function.update_of_ne (Ne.symm here)]
        exact untouched
      · right
        rcases mem_sites.mp siteMem with ⟨other, mem, otherEnabled, rfl⟩
        refine ⟨_, mem_sites.mpr ⟨other, mem_set_of_ne present mem ?_, otherEnabled, rfl⟩, siteHere⟩
        rintro rfl
        exact here siteHere

theorem perform {call : BreakpointCall} (saves : Saves address byte state)
    (performed : state.perform .success call = some next) : Saves address byte next := by
  rcases perform_cases saves.noTransient performed with
    ⟨address', callback, patch, -, rfl⟩ | rfl | ⟨index, breakpoint, -, present, disabled, rfl⟩ |
    ⟨index, breakpoint, -, present, enabled, rfl⟩
  · have unchanged := sites_append_disabled state.breakpoints address' patch callback
    refine ⟨saves.noTransient, ?_, ?_⟩
    · rw [unchanged]
      exact saves.saved
    · rw [unchanged]
      exact saves.covered
  · exact saves
  · exact saves.switchedOn present disabled
  · exact saves.switchedOff present enabled

theorem memory_eq (saves : Saves address byte state)
    (allDisabled : ∀ breakpoint ∈ state.breakpoints, breakpoint.enabled = false) :
    state.memory address = byte := by
  rcases saves.covered with untouched | ⟨site, siteMem, _⟩
  · exact untouched
  · rcases mem_sites.mp siteMem with ⟨breakpoint, mem, enabled, _⟩
    simp only [allDisabled breakpoint mem] at enabled
    cases enabled

end Saves

/-! ## Disabling one breakpoint last -/

/-- Disabling a breakpoint that exists changes the table as it should, enabled or not. -/
theorem disable_eq (present : state.breakpoints[index]? = some breakpoint) :
    (state.disable .success (.regular index)).breakpoints =
      state.breakpoints.set index { breakpoint with enabled := false } := by
  cases enabled : breakpoint.enabled with
  | true =>
      simp only [disable, enable_false_of_enabled present enabled]
      rfl
  | false =>
      have pointed : state.deref (.regular index) = some breakpoint := present
      simp only [disable, enable_of_eq pointed enabled]
      apply List.ext_getElem?
      intro position
      by_cases same : position = index
      · subst same
        rw [List.getElem?_set_self (List.getElem?_eq_some_iff.mp present).1, present, ← enabled]
      · rw [List.getElem?_set_ne (Ne.symm same)]

/-- Any breakpoints of the table can be disabled without the others being changed. -/
theorem exists_disabled (order : List Nat)
    (inTable : ∀ index ∈ order, index < state.breakpoints.length) :
    ∃ last, Transition.run (perform .success) state
        (order.map fun index => .disable (.regular index)) = some last ∧
      (∀ index ∈ order, ∀ breakpoint, last.breakpoints[index]? = some breakpoint →
        breakpoint.enabled = false) ∧
      (∀ index, index ∉ order → last.breakpoints[index]? = state.breakpoints[index]?) ∧
      last.breakpoints.length = state.breakpoints.length := by
  induction order generalizing state with
  | nil => exact ⟨state, rfl, by simp, fun _ _ => rfl, rfl⟩
  | cons first rest ih =>
      have bound := inTable first List.mem_cons_self
      have present := List.getElem?_eq_getElem bound
      have table := disable_eq present
      have length : (state.disable .success (.regular first)).breakpoints.length =
          state.breakpoints.length := by
        simp only [table, List.length_set]
      have inTableRest : ∀ index ∈ rest,
          index < (state.disable .success (.regular first)).breakpoints.length := by
        intro index mem
        rw [length]
        apply inTable index
        exact List.mem_cons_of_mem _ mem
      rcases ih inTableRest with ⟨last, reached, disabled, others, lastLength⟩
      refine ⟨last, ?_, ?_, ?_, lastLength.trans length⟩
      · apply Transition.run_cons_eq_some.mpr
        refine ⟨_, ?_, reached⟩
        simp [perform, deref, present]
      · intro index mem breakpoint found
        by_cases later : index ∈ rest
        · exact disabled index later breakpoint found
        · rcases List.mem_cons.mp mem with rfl | absurdMem
          · rw [others index later, table, List.getElem?_set_self bound, Option.some.injEq] at found
            rw [← found]
          · exact absurd absurdMem later
      · intro index apart
        simp only [List.mem_cons, not_or] at apart
        simp only [others index apart.2, table, List.getElem?_set_ne (Ne.symm apart.1)]

/-- An enabled breakpoint that is disabled after all others writes its saved byte last. -/
theorem exists_disabled_last (present : state.breakpoints[index]? = some breakpoint)
    (enabled : breakpoint.enabled = true) :
    ∃ calls last, Transition.run (perform .success) state calls = some last ∧
      (∀ other ∈ last.breakpoints, other.enabled = false) ∧
      last.memory breakpoint.address = breakpoint.patch := by
  have bound := (List.getElem?_eq_some_iff.mp present).1
  let others := (List.range state.breakpoints.length).filter (· ≠ index)
  have inTable : ∀ position ∈ others, position < state.breakpoints.length := by
    intro position mem
    exact List.mem_range.mp (List.mem_filter.mp mem).1
  rcases exists_disabled others inTable with ⟨middle, reached, disabled, untouched, length⟩
  have kept : middle.breakpoints[index]? = some breakpoint := by
    rw [untouched index (by simp [others]), present]
  have switched : middle.disable .success (.regular index) =
      middle.switchedOff .success index breakpoint := enable_false_of_enabled kept enabled
  refine ⟨others.map (fun position => .disable (.regular position)) ++ [.disable (.regular index)],
    middle.switchedOff .success index breakpoint, ?_, ?_, ?_⟩
  · simp only [Transition.run_append, reached, Option.bind_some]
    apply Transition.run_cons_eq_some.mpr
    refine ⟨_, ?_, rfl⟩
    rw [← switched]
    simp [perform, deref, kept]
  · intro other mem
    rcases List.mem_iff_getElem?.mp mem with ⟨position, found⟩
    have table : (middle.switchedOff .success index breakpoint).breakpoints =
        middle.breakpoints.set index { breakpoint with enabled := false } := rfl
    simp only [table] at found
    by_cases same : position = index
    · subst same
      rw [List.getElem?_set_self (by omega), Option.some.injEq] at found
      rw [← found]
    · simp only [List.getElem?_set_ne (Ne.symm same)] at found
      have inside := (List.getElem?_eq_some_iff.mp found).1
      exact disabled position (by simp [others, same]; omega) other found
  · simp [switchedOff]

/-! ## When a write agrees -/

/--
Reads after a write show it, enabled breakpoints stay armed and the written bytes stay
when all breakpoints are disabled, exactly if at every enabled breakpoint that the write
meets the byte that is written and the saved one are both `0xCC`.
-/
theorem writeAgrees_iff (noTransient : state.transientBreakpoints = []) :
    WriteAgrees state dst bytes ↔
      ∀ breakpoint ∈ state.breakpoints, breakpoint.enabled = true →
        ∀ byte, writtenByte dst bytes breakpoint.address = some byte →
          breakpoint.patch = int_3 ∧ byte = int_3 := by
  constructor
  · intro agrees breakpoint mem enabled byte written
    have armed := agrees.armed breakpoint mem enabled (Option.isSome_of_eq_some written)
    simp only [memory_afterWrite, written, Option.getD_some] at armed
    rcases List.mem_iff_getElem?.mp mem with ⟨index, present⟩
    have presentAfter : (state.afterWrite dst bytes).breakpoints[index]? = some breakpoint :=
      present
    rcases exists_disabled_last presentAfter enabled with
      ⟨calls, last, reached, allDisabled, restored⟩
    have kept := agrees.kept calls last reached allDisabled breakpoint.address byte written
    simp only [restored, armed] at kept
    exact ⟨kept, armed⟩
  · intro unpatched
    have same : ∀ breakpoint ∈ state.breakpoints, breakpoint.enabled = true →
        ∀ byte, writtenByte dst bytes breakpoint.address = some byte →
          breakpoint.patch = byte := by
      intro breakpoint mem enabled byte written
      rcases unpatched breakpoint mem enabled byte written with ⟨patch, rfl⟩
      exact patch
    refine ⟨read_afterWrite same, ?_, ?_⟩
    · intro breakpoint mem enabled written
      rcases Option.isSome_iff_exists.mp written with ⟨byte, written⟩
      simp only [memory_afterWrite, written]
      exact (unpatched breakpoint mem enabled byte written).2
    · intro calls last reached allDisabled address byte written
      have saves : Saves address byte (state.afterWrite dst bytes) := by
        refine ⟨noTransient, ?_, ?_⟩
        · intro site siteMem here
          rcases mem_sites.mp siteMem with ⟨breakpoint, mem, enabled, rfl⟩
          have writtenHere : writtenByte dst bytes breakpoint.address = some byte := by
            simp only [show breakpoint.address = address from here, written]
          exact same breakpoint mem enabled byte writtenHere
        · left
          simp only [memory_afterWrite, written]
          rfl
      exact (Transition.invariant_of_run (Saves address byte)
        (fun _ _ _ saves performed => saves.perform performed) saves reached).memory_eq allDisabled

theorem writeAgrees_beside_breakpoint :
    ∃ state, Transition.run (perform .success) (initial fun _ => 0x90#8) onePatch = some state ∧
      WriteAgrees state 0x1001#64 [0x55#8] := by
  obtain ⟨state, reached, noTransient, table⟩ : ∃ state, Transition.run (perform .success)
      (initial fun _ => 0x90#8) onePatch = some state ∧ state.transientBreakpoints = [] ∧
      state.breakpoints = [⟨0x1000#64, 0x90#8, true, none⟩] := ⟨_, rfl, rfl, by decide⟩
  refine ⟨state, reached, (writeAgrees_iff noTransient).mpr ?_⟩
  intro breakpoint mem enabled byte written
  simp only [table, List.mem_singleton] at mem
  subst mem
  revert written
  simp [writtenByte]

/-- A byte written over an enabled breakpoint disarms it and is not seen. -/
theorem not_writeAgrees_at_breakpoint :
    ∃ state, Transition.run (perform .success) (initial fun _ => 0x90#8) onePatch = some state ∧
      (state.afterWrite 0x1000#64 [0x55#8]).read true [0#8] 0x1000#64 = ([0x90#8], 1) ∧
      ¬WriteAgrees state 0x1000#64 [0x55#8] := by
  refine ⟨_, rfl, by decide, ?_⟩
  intro agrees
  have armed := agrees.armed ⟨0x1000#64, 0x90#8, true, none⟩ (by decide) rfl (by decide)
  apply absurd armed
  decide

end RustDbg.BreakpointState
