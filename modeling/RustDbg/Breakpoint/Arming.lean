import RustDbg.Breakpoint.Hiding

/-!
# When an enabled breakpoint is armed

The `enabled` flag belongs to an object and the patched byte to an address, so
disabling one of two enabled breakpoints at an address disarms the other. This is
the only way in which an enabled breakpoint loses its `0xCC`: it keeps it along
exactly those sequences of calls that never disable a breakpoint while another
one at its address is enabled over a byte that was not `0xCC` already.
-/

namespace RustDbg.BreakpointState

/-- Every enabled breakpoint has the byte `0xCC` at its address. -/
def Armed (state : BreakpointState) : Prop :=
  ∀ breakpoint ∈ state.breakpoints, breakpoint.enabled = true →
    state.memory breakpoint.address = int_3

/-- The call does not restore a byte under another enabled breakpoint. -/
def DisarmsNoOther (original : Memory) (state : BreakpointState) (call : BreakpointCall) : Prop :=
  ∀ index breakpoint other otherBreakpoint,
    call.request = some (.regular index, false) →
    state.breakpoints[index]? = some breakpoint → breakpoint.enabled = true →
    other ≠ index → state.breakpoints[other]? = some otherBreakpoint →
    otherBreakpoint.enabled = true → otherBreakpoint.address = breakpoint.address →
    original breakpoint.address = int_3

variable {original : Memory} {state : BreakpointState} {outcome : AccessOutcome} {index : Nat}
  {breakpoint : MDBBreakpoint}

theorem armed_initial (original : Memory) : Armed (initial original) := by
  simp [Armed, initial]

theorem Armed.switchedOn (armed : Armed state) (writes : outcome.writes = true) :
    Armed (state.switchedOn outcome index breakpoint) := by
  intro switched mem enabled
  simp only [BreakpointState.switchedOn, writes, if_true] at mem ⊢
  by_cases here : switched.address = breakpoint.address
  · simp only [here, Function.update_self]
  · rw [Function.update_of_ne here]
    rcases List.mem_or_eq_of_mem_set mem with old | rfl
    · exact armed switched old enabled
    · exact absurd rfl here

/-- Switching off keeps the others armed iff none of them shares the restored byte. -/
theorem armed_switchedOff_iff (hidden : Hidden original state) (armed : Armed state)
    (present : state.breakpoints[index]? = some breakpoint) (enabled : breakpoint.enabled = true)
    (writes : outcome.writes = true) :
    Armed (state.switchedOff outcome index breakpoint) ↔
      ∀ other otherBreakpoint, other ≠ index →
        state.breakpoints[other]? = some otherBreakpoint → otherBreakpoint.enabled = true →
        otherBreakpoint.address = breakpoint.address → original breakpoint.address = int_3 := by
  have restored := hidden.patch_eq (List.mem_of_getElem? present) enabled
  have memory_eq : (state.switchedOff outcome index breakpoint).memory =
      Function.update state.memory breakpoint.address (original breakpoint.address) := by
    simp [BreakpointState.switchedOff, writes, restored]
  have table_eq : (state.switchedOff outcome index breakpoint).breakpoints =
      state.breakpoints.set index { breakpoint with enabled := false } := rfl
  simp only [Armed, memory_eq, table_eq]
  constructor
  · intro stillArmed other otherBreakpoint different found otherEnabled shared
    have kept : otherBreakpoint ∈
        state.breakpoints.set index { breakpoint with enabled := false } := by
      apply List.mem_iff_getElem?.mpr
      exact ⟨other, by rw [List.getElem?_set_ne different.symm, found]⟩
    have byte := stillArmed otherBreakpoint kept otherEnabled
    rwa [shared, Function.update_self] at byte
  · intro unshared otherBreakpoint mem otherEnabled
    rcases List.mem_iff_getElem?.mp mem with ⟨other, found⟩
    have different : other ≠ index := by
      rintro rfl
      simp only [List.getElem?_set_self (List.getElem?_eq_some_iff.mp present).1] at found
      simp only [Option.some.injEq] at found
      subst found
      simp at otherEnabled
    simp only [List.getElem?_set_ne different.symm] at found
    by_cases shared : otherBreakpoint.address = breakpoint.address
    · simp only [shared, Function.update_self]
      exact unshared other otherBreakpoint different found otherEnabled shared
    · rw [Function.update_of_ne shared]
      exact armed otherBreakpoint (List.mem_of_getElem? found) otherEnabled

theorem armed_perform_iff (hidden : Hidden original state) (armed : Armed state)
    (call : BreakpointCall) :
    (∀ next, state.perform .success call = some next → Armed next) ↔
      DisarmsNoOther original state call := by
  constructor
  · intro stays index breakpoint other otherBreakpoint request present enabled
    have performed : state.perform .success call =
        some (state.switchedOff .success index breakpoint) := by
      simp only [perform_of_request request, enable_false_of_enabled present enabled]
      simp [deref, present]
    have stillArmed := stays _ performed
    exact (armed_switchedOff_iff hidden armed present enabled rfl).mp stillArmed
      other otherBreakpoint
  · intro disarmsNone next performed
    rcases perform_cases hidden.noTransient performed with
      ⟨address, callback, patch, -, rfl⟩ | rfl | ⟨index, breakpoint, -, -, -, rfl⟩ |
      ⟨index, breakpoint, request, present, enabled, rfl⟩
    · intro breakpoint mem enabled
      rcases List.mem_append.mp mem with old | new
      · exact armed breakpoint old enabled
      · simp only [List.mem_singleton] at new
        simp [new] at enabled
    · exact armed
    · exact armed.switchedOn rfl
    · apply (armed_switchedOff_iff hidden armed present enabled rfl).mpr
      intro other otherBreakpoint different found otherEnabled shared
      exact disarmsNone index breakpoint other otherBreakpoint request present enabled
        different found otherEnabled shared

/--
Enabled breakpoints stay armed in every state of a run iff no call of the run
restores the byte of another enabled breakpoint.
-/
theorem armed_iff_disarmsNoOther (original : Memory) (calls : List BreakpointCall) :
    (∀ front state, front <+: calls →
        Transition.run (perform .success) (initial original) front = some state → Armed state) ↔
      Transition.StepsSatisfy (perform .success) (DisarmsNoOther original) (initial original)
        calls := by
  simp only [Transition.forall_reached_iff, and_iff_right (armed_initial original)]
  refine Transition.stepsSatisfy_congr (fun state => Hidden original state ∧ Armed state)
    ?_ ?_ ⟨hidden_initial original, armed_initial original⟩ calls
  · rintro state call ⟨hidden, armed⟩
    exact armed_perform_iff hidden armed call
  · rintro state call next ⟨hidden, armed⟩ disarmsNone performed
    exact ⟨hidden.perform (accessesSucceed_success state call) performed,
      (armed_perform_iff hidden armed call).mpr disarmsNone next performed⟩

/-- Two breakpoints at one address: disabling the first leaves the second enabled and disarmed. -/
theorem not_armed_after_disable_of_shared :
    ∃ state, Transition.run (perform .success) (initial fun _ => 0x90#8)
        [.createBreakpoint 0x1000#64 none 0#8, .createBreakpoint 0x1000#64 none 0#8,
          .enable (.regular 0) true, .enable (.regular 1) true, .disable (.regular 0)] =
          some state ∧ ¬ Armed state := by
  refine ⟨_, rfl, ?_⟩
  intro armed
  have byte := armed ⟨0x1000#64, 0x90#8, true, none⟩ (by decide) rfl
  apply absurd byte
  decide

end RustDbg.BreakpointState
