import RustDbg.Library.Overlay
import RustDbg.Breakpoint.Basic

/-!
# What a memory access and a switch of a breakpoint do

A successful `MDBDebugger::read` returns a window of the memory seen through the
saved bytes of the enabled breakpoints, whatever their number and order. The
two switches of `MDBBreakpoint::enable` are given as equations for every outcome
of their Mach calls; later files use these and never the definition.
-/

namespace RustDbg.BreakpointState

/-- The addresses and saved bytes of the enabled breakpoints, in table order. -/
def sites (breakpoints : List MDBBreakpoint) : List (Address × Byte) :=
  (breakpoints.filter (·.enabled)).map fun breakpoint => (breakpoint.address, breakpoint.patch)

/-- The target memory as `MDBDebugger::read` presents it. -/
def view (state : BreakpointState) : Memory :=
  Overlay.overlay state.memory (sites state.breakpoints)

theorem mem_sites {breakpoints : List MDBBreakpoint} {site : Address × Byte} :
    site ∈ sites breakpoints ↔
      ∃ breakpoint ∈ breakpoints, breakpoint.enabled = true ∧
        site = (breakpoint.address, breakpoint.patch) := by
  simp only [sites, List.mem_map, List.mem_filter]
  constructor
  · rintro ⟨breakpoint, ⟨mem, enabled⟩, rfl⟩
    exact ⟨breakpoint, mem, enabled, rfl⟩
  · rintro ⟨breakpoint, mem, enabled, rfl⟩
    exact ⟨breakpoint, ⟨mem, enabled⟩, rfl⟩

/-- A breakpoint that is created is disabled and saves nothing. -/
theorem sites_append_disabled (breakpoints : List MDBBreakpoint) (address : Address) (patch : Byte)
    (callback : Option CallbackId) :
    sites (breakpoints ++ [⟨address, patch, false, callback⟩]) = sites breakpoints := by
  simp [sites]

/-! ## Reading -/

theorem window_address_eq_iff {src address : Address} {i : Nat} (small : i < 2 ^ 64) :
    src + BitVec.ofNat 64 i = address ↔ i = (address - src).toNat := by
  constructor
  · rintro rfl
    have : (src + BitVec.ofNat 64 i - src) = BitVec.ofNat 64 i := by
      rw [BitVec.add_comm, BitVec.add_sub_cancel]
    rw [this, BitVec.toNat_ofNat, Nat.mod_eq_of_lt small]
  · rintro rfl
    rw [BitVec.ofNat_toNat, BitVec.setWidth_eq, BitVec.add_comm, BitVec.sub_add_cancel]

/-- The signed offset test of the loop selects exactly the addresses of the window. -/
theorem offset_in_window_iff {src address : Address} {size : Nat} (small : size < 2 ^ 31) :
    (0 ≤ (address - src).toInt ∧ (address - src).toInt < intOfSize size) ↔
      (address - src).toNat < size := by
  simp only [intOfSize_of_lt small, BitVec.toInt_eq_toNat_cond]
  have bound := (address - src).isLt
  split <;> omega

theorem toNat_offset {src address : Address} (nonnegative : 0 ≤ (address - src).toInt) :
    (address - src).toInt.toNat = (address - src).toNat := by
  simp only [BitVec.toInt_eq_toNat_cond] at nonnegative ⊢
  split at nonnegative <;> split <;> omega

theorem hidePatch_window {src : Address} {size : Nat} (small : size < 2 ^ 31) (memory : Memory)
    (breakpoint : MDBBreakpoint) :
    hidePatch src size (window memory src size) breakpoint =
      window (Overlay.overlay memory (sites [breakpoint])) src size := by
  by_cases enabled : breakpoint.enabled
  · have hidden : Overlay.overlay memory (sites [breakpoint]) =
        Function.update memory breakpoint.address breakpoint.patch := by
      simp [sites, enabled]
    simp only [hidePatch, enabled, if_true, offset_in_window_iff small, hidden]
    by_cases inside : (breakpoint.address - src).toNat < size
    · have nonnegative := (offset_in_window_iff small).mpr inside
      simp only [if_pos inside, toNat_offset nonnegative.1]
      apply List.ext_getElem (by simp)
      intro i setBound windowBound
      have iSmall : i < 2 ^ 64 := by
        simp only [length_window] at windowBound
        omega
      simp only [List.getElem_set, getElem_window, Function.update_apply,
        window_address_eq_iff iSmall, eq_comm]
    · rw [if_neg inside]
      apply List.ext_getElem (by simp)
      intro i bound windowBound
      have iSmall : i < size := by simpa using windowBound
      simp only [getElem_window, Function.update_apply]
      rw [if_neg]
      rw [window_address_eq_iff (by omega)]
      omega
  · simp [hidePatch, enabled, sites]

theorem foldl_hidePatch_window {src : Address} {size : Nat} (small : size < 2 ^ 31)
    (memory : Memory) (breakpoints : List MDBBreakpoint) :
    breakpoints.foldl (hidePatch src size) (window memory src size) =
      window (Overlay.overlay memory (sites breakpoints)) src size := by
  induction breakpoints generalizing memory with
  | nil => rfl
  | cons breakpoint rest ih =>
      simp only [List.foldl_cons, hidePatch_window small, ih]
      congr 1
      by_cases enabled : breakpoint.enabled <;> simp [sites, enabled]

/-- A successful read returns the view of the window and the window's size. -/
theorem read_eq_window (state : BreakpointState) (dst : List Byte) (src : Address)
    (small : dst.length < 2 ^ 31) :
    state.read true dst src = (window state.view src dst.length, (dst.length : Int)) := by
  simp only [read, machVmReadOverwrite, if_true, foldl_hidePatch_window small,
    intOfSize_of_lt small, view]

/-! ## Switching -/

/-- The byte `MDBBreakpoint::enable` finds in its patch field after its read. -/
def savedPatch (state : BreakpointState) (ok : Bool) (breakpoint : MDBBreakpoint) : Byte :=
  (state.read ok [breakpoint.patch] breakpoint.address).1.headD breakpoint.patch

theorem savedPatch_of_ok (state : BreakpointState) (breakpoint : MDBBreakpoint) :
    state.savedPatch true breakpoint = state.view breakpoint.address := by
  simp [savedPatch, read_eq_window, window]

theorem write_byte (memory : Memory) (outcome : AccessOutcome) (dst : Address) (byte : Byte) :
    write memory outcome dst [byte] =
      (if outcome.writes then Function.update memory dst byte else memory, 1) := by
  have one : intOfSize [byte].length = 1 := by simp [intOfSize]
  simp only [write, one]
  rcases outcome with ⟨_, _ | _, _, _ | _⟩ <;> simp [machVmWrite, AccessOutcome.writes]

variable {state : BreakpointState} {outcome : AccessOutcome} {index : Nat}
  {breakpoint : MDBBreakpoint}

def switchedOn (state : BreakpointState) (outcome : AccessOutcome) (index : Nat)
    (breakpoint : MDBBreakpoint) : BreakpointState :=
  { state with
    memory := if outcome.writes then Function.update state.memory breakpoint.address int_3
      else state.memory
    breakpoints := state.breakpoints.set index
      { breakpoint with
        patch := state.savedPatch outcome.readOk breakpoint
        enabled := true } }

def switchedOff (state : BreakpointState) (outcome : AccessOutcome) (index : Nat)
    (breakpoint : MDBBreakpoint) : BreakpointState :=
  { state with
    memory := if outcome.writes then
        Function.update state.memory breakpoint.address breakpoint.patch
      else state.memory
    breakpoints := state.breakpoints.set index { breakpoint with enabled := false } }

/-- Switching on sets the flag whether or not the byte was saved and replaced. -/
theorem enable_true_of_disabled (present : state.breakpoints[index]? = some breakpoint)
    (disabled : breakpoint.enabled = false) :
    state.enable outcome (.regular index) true = state.switchedOn outcome index breakpoint := by
  have answered : (state.read outcome.readOk [breakpoint.patch] breakpoint.address).2 ≠ 0 := by
    cases readOk : outcome.readOk <;> simp [read, intOfSize]
  simp [enable, deref, present, disabled, answered, write_byte, assign, savedPatch, switchedOn]

theorem enable_false_of_enabled (present : state.breakpoints[index]? = some breakpoint)
    (enabled : breakpoint.enabled = true) :
    state.enable outcome (.regular index) false = state.switchedOff outcome index breakpoint := by
  simp [enable, deref, present, enabled, write_byte, assign, switchedOff]

theorem enable_of_eq {ref : BreakpointRef} {flag : Bool}
    (present : state.deref ref = some breakpoint)
    (same : breakpoint.enabled = flag) : state.enable outcome ref flag = state := by
  cases flag <;> simp [enable, present, same]

/-! ## Switching off and on again -/

/-- Enabled breakpoints at one address have saved the same byte. -/
def PatchesAgree (breakpoints : List MDBBreakpoint) : Prop :=
  ∀ first ∈ breakpoints, ∀ second ∈ breakpoints, first.enabled = true → second.enabled = true →
    first.address = second.address → first.patch = second.patch

/-- Where the restored byte is still there, switching on again brings the table back. -/
theorem enable_of_switchedOff (agree : PatchesAgree state.breakpoints)
    (present : state.breakpoints[index]? = some breakpoint) (enabled : breakpoint.enabled = true)
    {memory : Memory} (restored : memory breakpoint.address = breakpoint.patch) :
    ({ state.switchedOff .success index breakpoint with memory }).enable .success
        (.regular index) true =
      { state with memory := Function.update memory breakpoint.address int_3 } := by
  have bound := (List.getElem?_eq_some_iff.mp present).1
  have mem := List.mem_of_getElem? present
  have presentOff : ({ state.switchedOff .success index breakpoint with memory } :
      BreakpointState).breakpoints[index]? = some { breakpoint with enabled := false } :=
    List.getElem?_set_self bound
  have saved : ({ state.switchedOff .success index breakpoint with memory } :
      BreakpointState).view breakpoint.address = breakpoint.patch := by
    apply Overlay.overlay_apply_eq
    · intro site siteMem here
      rcases mem_sites.mp siteMem with ⟨other, otherMem, otherEnabled, rfl⟩
      rcases List.mem_or_eq_of_mem_set otherMem with old | rfl
      · exact agree other old breakpoint mem otherEnabled enabled here
      · simp at otherEnabled
    · exact Or.inl restored
  have same : ({ breakpoint with enabled := true } : MDBBreakpoint) = breakpoint := by
    rw [← enabled]
  have table : state.breakpoints.set index breakpoint = state.breakpoints := by
    rcases List.getElem?_eq_some_iff.mp present with ⟨_, rfl⟩
    exact List.set_getElem_self bound
  rw [enable_true_of_disabled presentOff rfl]
  simp only [switchedOn, AccessOutcome.readOk_success, savedPatch_of_ok, saved]
  simp only [switchedOff, AccessOutcome.writes_success, if_true, List.set_set, same, table]

/-! ## Calls -/

end RustDbg.BreakpointState

namespace RustDbg

/-- The breakpoint a call switches and the position it asks for. -/
def BreakpointCall.request : BreakpointCall → Option (BreakpointRef × Bool)
  | .createBreakpoint .. => none
  | .enable ref flag => some (ref, flag)
  | .disable ref => some (ref, false)

namespace BreakpointState

variable {state next : BreakpointState} {outcome : AccessOutcome} {call : BreakpointCall}
  {index : Nat} {breakpoint : MDBBreakpoint}

theorem perform_of_request {ref : BreakpointRef} {flag : Bool}
    (request : call.request = some (ref, flag)) :
    state.perform outcome call =
      if (state.deref ref).isSome then some (state.enable outcome ref flag) else none := by
  cases call with
  | createBreakpoint => simp [BreakpointCall.request] at request
  | enable ref' flag' =>
      simp only [BreakpointCall.request, Option.some.injEq, Prod.mk.injEq] at request
      rcases request with ⟨rfl, rfl⟩
      rfl
  | disable ref' =>
      simp only [BreakpointCall.request, Option.some.injEq, Prod.mk.injEq] at request
      rcases request with ⟨rfl, rfl⟩
      rfl

/-- Everything a call can do while the transient table is empty. -/
theorem perform_cases (noTransient : state.transientBreakpoints = [])
    (performed : state.perform outcome call = some next) :
    (∃ address callback patch, call = .createBreakpoint address callback patch ∧
      next = { state with
        breakpoints := state.breakpoints ++ [⟨address, patch, false, callback⟩] }) ∨
    next = state ∨
    (∃ index breakpoint, call.request = some (.regular index, true) ∧
      state.breakpoints[index]? = some breakpoint ∧ breakpoint.enabled = false ∧
      next = state.switchedOn outcome index breakpoint) ∨
    (∃ index breakpoint, call.request = some (.regular index, false) ∧
      state.breakpoints[index]? = some breakpoint ∧ breakpoint.enabled = true ∧
      next = state.switchedOff outcome index breakpoint) := by
  cases request : call.request with
  | none =>
      cases call with
      | createBreakpoint address callback patch =>
          left
          refine ⟨address, callback, patch, rfl, ?_⟩
          simpa [perform, createBreakpoint] using performed.symm
      | enable => simp [BreakpointCall.request] at request
      | disable => simp [BreakpointCall.request] at request
  | some switch =>
      right
      rcases switch with ⟨ref, flag⟩
      simp only [perform_of_request request] at performed
      cases pointed : state.deref ref with
      | none => simp [pointed] at performed
      | some breakpoint =>
          have next_eq : next = state.enable outcome ref flag := by
            simpa [pointed] using performed.symm
          by_cases same : breakpoint.enabled = flag
          · left
            simp only [next_eq, enable_of_eq pointed same]
          · right
            cases ref with
            | transient index => simp [deref, noTransient] at pointed
            | regular index =>
                cases flag with
                | true =>
                    left
                    have disabled : breakpoint.enabled = false := by simpa using same
                    exact ⟨index, breakpoint, rfl, pointed, disabled,
                      next_eq.trans (enable_true_of_disabled pointed disabled)⟩
                | false =>
                    right
                    have enabled : breakpoint.enabled = true := by simpa using same
                    exact ⟨index, breakpoint, rfl, pointed, enabled,
                      next_eq.trans (enable_false_of_enabled pointed enabled)⟩

end BreakpointState

end RustDbg
