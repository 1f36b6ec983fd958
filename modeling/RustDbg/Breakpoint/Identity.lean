import RustDbg.Breakpoint.Access

/-!
# What a switch leaves of a breakpoint

However a breakpoint is switched and whichever accesses fail, it keeps its place, its address
and its callback, and no byte is written but the one at its address.
-/

namespace RustDbg

/-- What never changes of a breakpoint. -/
def MDBBreakpoint.identity (breakpoint : MDBBreakpoint) : Address × Option CallbackId :=
  (breakpoint.address, breakpoint.callback)

namespace BreakpointState

/-- The address of a breakpoint of either table. -/
def HasBreakpoint (state : BreakpointState) (address : Address) : Prop :=
  ∃ breakpoint ∈ state.breakpoints ++ state.transientBreakpoints, breakpoint.address = address

/-- The identities of the breakpoints of a table, by their positions. -/
def identities (breakpoints : List MDBBreakpoint) : List (Address × Option CallbackId) :=
  breakpoints.map (·.identity)

variable {state : BreakpointState} {outcome : AccessOutcome} {ref : BreakpointRef} {flag : Bool}
  {breakpoint : MDBBreakpoint}

theorem machVmWrite_singleton (ok : Bool) (memory : Memory) (dst : Address) (byte : Byte) :
    machVmWrite ok memory dst [byte] = memory ∨
      machVmWrite ok memory dst [byte] = Function.update memory dst byte := by
  cases ok with
  | false => exact Or.inl rfl
  | true =>
      right
      simp only [machVmWrite, if_true, store_singleton]

theorem write_singleton (memory : Memory) (outcome : AccessOutcome) (dst : Address) (byte : Byte) :
    (write memory outcome dst [byte]).1 = memory ∨
      (write memory outcome dst [byte]).1 = Function.update memory dst byte := by
  simp only [write]
  split <;> exact machVmWrite_singleton ..

/-- A switch assigns to its breakpoint and writes at most the byte at its address. -/
theorem enable_cases (state : BreakpointState) (outcome : AccessOutcome) (ref : BreakpointRef)
    (flag : Bool) :
    state.enable outcome ref flag = state ∨
      ∃ (breakpoint : MDBBreakpoint) (patch : Byte) (enabled : Bool) (memory : Memory),
        state.deref ref = some breakpoint ∧
        (memory = state.memory ∨
          ∃ byte, memory = Function.update state.memory breakpoint.address byte) ∧
        state.enable outcome ref flag =
          { state with memory }.assign { breakpoint with patch, enabled } ref := by
  cases present : state.deref ref with
  | none =>
      left
      simp only [enable, present]
  | some breakpoint =>
      simp only [enable, present]
      split
      · right
        split
        · refine ⟨breakpoint, _, _, _, rfl, ?_, rfl⟩
          exact (write_singleton ..).imp id fun written => ⟨_, written⟩
        · exact ⟨breakpoint, _, false, state.memory, rfl, Or.inl rfl, rfl⟩
      · split
        · right
          refine ⟨breakpoint, breakpoint.patch, _, _, rfl, ?_, rfl⟩
          exact (write_singleton ..).imp id fun written => ⟨_, written⟩
        · exact Or.inl rfl

theorem map_set_of_eq {Value : Type} (value : MDBBreakpoint → Value)
    {breakpoints : List MDBBreakpoint} {index : Nat} {new : MDBBreakpoint}
    (present : breakpoints[index]? = some breakpoint) (same : value new = value breakpoint) :
    (breakpoints.set index new).map value = breakpoints.map value := by
  rcases List.getElem?_eq_some_iff.mp present with ⟨inside, rfl⟩
  rw [List.map_set, same, ← List.map_set, List.set_getElem_self inside]

/-- An assignment that keeps the identity of a breakpoint keeps those of both tables. -/
theorem identities_assign {new : MDBBreakpoint} (present : state.deref ref = some breakpoint)
    (same : new.identity = breakpoint.identity) (memory : Memory) :
    identities ({ state with memory }.assign new ref).breakpoints = identities state.breakpoints ∧
      identities ({ state with memory }.assign new ref).transientBreakpoints =
        identities state.transientBreakpoints := by
  cases ref with
  | regular index =>
      refine ⟨?_, rfl⟩
      exact map_set_of_eq _ present same
  | transient index =>
      refine ⟨rfl, ?_⟩
      exact map_set_of_eq _ present same

theorem memory_assign (state : BreakpointState) (new : MDBBreakpoint) (ref : BreakpointRef) :
    (state.assign new ref).memory = state.memory := by
  cases ref <;> rfl

theorem identities_enable (state : BreakpointState) (outcome : AccessOutcome)
    (ref : BreakpointRef) (flag : Bool) :
    identities (state.enable outcome ref flag).breakpoints = identities state.breakpoints ∧
      identities (state.enable outcome ref flag).transientBreakpoints =
        identities state.transientBreakpoints := by
  rcases enable_cases state outcome ref flag with
    same | ⟨breakpoint, patch, flag', memory, present, -, enabled⟩
  · rw [same]
    exact ⟨rfl, rfl⟩
  · rw [enabled]
    apply identities_assign present
    rfl

theorem hasBreakpoint_of_deref (present : state.deref ref = some breakpoint) :
    state.HasBreakpoint breakpoint.address := by
  refine ⟨breakpoint, ?_, rfl⟩
  cases ref with
  | regular index =>
      apply List.mem_append_left
      exact List.mem_of_getElem? present
  | transient index =>
      apply List.mem_append_right
      exact List.mem_of_getElem? present

/-- A switch writes to no address but that of a breakpoint. -/
theorem memory_enable (outcome : AccessOutcome) (ref : BreakpointRef) (flag : Bool)
    {address : Address} (elsewhere : ¬state.HasBreakpoint address) :
    (state.enable outcome ref flag).memory address = state.memory address := by
  rcases enable_cases state outcome ref flag with
    same | ⟨breakpoint, patch, flag', memory, present, written, enabled⟩
  · rw [same]
  · have different : address ≠ breakpoint.address := by
      rintro rfl
      exact elsewhere (hasBreakpoint_of_deref present)
    rw [enabled, memory_assign]
    rcases written with rfl | ⟨byte, rfl⟩
    · rfl
    · exact Function.update_of_ne different _ _

end BreakpointState

end RustDbg
