import RustDbg.Breakpoint.Basic
import RustDbg.Library.Lookup

/-!
# Finding a breakpoint

`MDBDebugger::findBreakpoint` answers the first breakpoint at an address. When no
two breakpoints share an address, that is the only one.
-/

namespace RustDbg.BreakpointState

variable {state : BreakpointState} {address : Address} {ref : BreakpointRef}
  {breakpoint : MDBBreakpoint}

/-- No two breakpoints are at the same address. -/
def DistinctAddresses (state : BreakpointState) : Prop :=
  ((state.breakpoints ++ state.transientBreakpoints).map (·.address)).Nodup

/-- An enabled breakpoint is at the address. -/
def EnabledAt (state : BreakpointState) (address : Address) : Prop :=
  ∃ ref breakpoint, state.deref ref = some breakpoint ∧ breakpoint.enabled = true ∧
    breakpoint.address = address

theorem deref_findBreakpoint (found : state.findBreakpoint address = some ref) :
    ∃ breakpoint, state.deref ref = some breakpoint ∧ breakpoint.address = address := by
  simp only [findBreakpoint] at found
  split at found
  · rename_i index first
    rcases List.findIdx?_eq_some_iff_getElem.mp first with ⟨bound, here, -⟩
    obtain rfl : .regular index = ref := by simpa using found
    exact ⟨state.breakpoints[index], List.getElem?_eq_getElem bound, by simpa using here⟩
  · simp only [Option.map_eq_some_iff] at found
    rcases found with ⟨index, first, rfl⟩
    rcases List.findIdx?_eq_some_iff_getElem.mp first with ⟨bound, here, -⟩
    exact ⟨state.transientBreakpoints[index], List.getElem?_eq_getElem bound, by simpa using here⟩

theorem findIdx?_address {breakpoints : List MDBBreakpoint}
    (distinct : (breakpoints.map (·.address)).Nodup) {index : Nat}
    (present : breakpoints[index]? = some breakpoint) :
    breakpoints.findIdx? (·.address == breakpoint.address) = some index := by
  exact Lookup.findIdx?_of_nodup distinct present

theorem findBreakpoint_of_deref (distinct : state.DistinctAddresses)
    (pointed : state.deref ref = some breakpoint) :
    state.findBreakpoint breakpoint.address = some ref := by
  simp only [DistinctAddresses, List.map_append, List.nodup_append] at distinct
  rcases distinct with ⟨regularDistinct, transientDistinct, apart⟩
  cases ref with
  | regular index =>
      simp only [findBreakpoint, findIdx?_address regularDistinct pointed]
  | transient index =>
      have absent : state.breakpoints.findIdx? (·.address == breakpoint.address) = none := by
        rw [List.findIdx?_eq_none_iff]
        intro other otherMem
        have mem := List.mem_of_getElem? pointed
        simpa using apart _ (List.mem_map_of_mem otherMem) _ (List.mem_map_of_mem mem)
      simp only [findBreakpoint, absent, findIdx?_address transientDistinct pointed,
        Option.map_some]

end RustDbg.BreakpointState
