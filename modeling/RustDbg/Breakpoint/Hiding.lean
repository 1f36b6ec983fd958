import RustDbg.Library.Transition
import RustDbg.Breakpoint.Access

/-!
# Breakpoints are hidden and leave no residue

Along every sequence of calls whose Mach calls succeed, each enabled breakpoint
holds the original byte of its address, and the raw memory differs from the
original at addresses of enabled breakpoints only. The byte saved by a
breakpoint that is enabled over another one is the original one because
`MDBDebugger::read` already hides the patch of the other.
-/

namespace RustDbg.BreakpointState

/-- The saved bytes recover the original memory. -/
structure Hidden (original : Memory) (state : BreakpointState) : Prop where
  noTransient : state.transientBreakpoints = []
  sound : Overlay.Sound original state.memory (sites state.breakpoints)

/-- The accesses made by a call, if any, all reach the target. -/
def AccessesSucceed (outcome : AccessOutcome) (state : BreakpointState) (call : BreakpointCall) :
    Prop :=
  ∀ ref flag breakpoint, call.request = some (ref, flag) → state.deref ref = some breakpoint →
    (breakpoint.enabled = false → flag = true → outcome.readOk = true ∧ outcome.writes = true) ∧
      (breakpoint.enabled = true → flag = false → outcome.writes = true)

theorem accessesSucceed_success (state : BreakpointState) (call : BreakpointCall) :
    AccessesSucceed .success state call := by
  intro ref flag breakpoint _ _
  simp

variable {original : Memory} {state next : BreakpointState} {outcome : AccessOutcome}
  {call : BreakpointCall} {index : Nat} {breakpoint : MDBBreakpoint}

theorem hidden_initial (original : Memory) : Hidden original (initial original) :=
  ⟨rfl, Overlay.Sound.nil original⟩

theorem Hidden.view_eq (hidden : Hidden original state) : state.view = original :=
  hidden.sound.overlay_eq

theorem Hidden.patch_eq (hidden : Hidden original state) (mem : breakpoint ∈ state.breakpoints)
    (enabled : breakpoint.enabled = true) : breakpoint.patch = original breakpoint.address :=
  hidden.sound.saved_original (breakpoint.address, breakpoint.patch)
    (mem_sites.mpr ⟨breakpoint, mem, enabled, rfl⟩)

theorem Hidden.memory_eq (hidden : Hidden original state) {address : Address}
    (none_enabled : ∀ breakpoint ∈ state.breakpoints, breakpoint.enabled = true →
      breakpoint.address ≠ address) : state.memory address = original address := by
  apply hidden.sound.raw_original
  intro site siteMem
  rcases mem_sites.mp siteMem with ⟨breakpoint, mem, enabled, rfl⟩
  exact none_enabled breakpoint mem enabled

theorem mem_set_of_ne {breakpoints : List MDBBreakpoint} {old new other : MDBBreakpoint}
    (present : breakpoints[index]? = some old) (mem : other ∈ breakpoints)
    (different : other ≠ old) : other ∈ breakpoints.set index new := by
  rcases List.mem_iff_getElem?.mp mem with ⟨position, found⟩
  apply List.mem_iff_getElem?.mpr
  refine ⟨position, ?_⟩
  rw [List.getElem?_set_ne, found]
  rintro rfl
  apply different
  exact Option.some.inj (found.symm.trans present)

theorem Hidden.switchedOn (hidden : Hidden original state)
    (present : state.breakpoints[index]? = some breakpoint) (disabled : breakpoint.enabled = false)
    (readOk : outcome.readOk = true) (writes : outcome.writes = true) :
    Hidden original (state.switchedOn outcome index breakpoint) := by
  have saved : state.savedPatch outcome.readOk breakpoint = original breakpoint.address := by
    simp only [readOk, savedPatch_of_ok, hidden.view_eq]
  refine ⟨hidden.noTransient, ?_⟩
  simp only [BreakpointState.switchedOn, writes, if_true, saved]
  apply hidden.sound.patch
  intro site
  constructor
  · intro siteMem
    rcases mem_sites.mp siteMem with ⟨switched, mem, enabled, rfl⟩
    rcases List.mem_or_eq_of_mem_set mem with old | rfl
    · apply Or.inl
      exact mem_sites.mpr ⟨switched, old, enabled, rfl⟩
    · exact Or.inr rfl
  · rintro (siteMem | rfl)
    · rcases mem_sites.mp siteMem with ⟨other, mem, enabled, rfl⟩
      refine mem_sites.mpr ⟨other, mem_set_of_ne present mem ?_, enabled, rfl⟩
      rintro rfl
      simp [disabled] at enabled
    · apply mem_sites.mpr
      exact ⟨_, List.mem_set (List.getElem?_eq_some_iff.mp present).1 _, rfl, rfl⟩

theorem Hidden.switchedOff (hidden : Hidden original state)
    (present : state.breakpoints[index]? = some breakpoint) (enabled : breakpoint.enabled = true)
    (writes : outcome.writes = true) :
    Hidden original (state.switchedOff outcome index breakpoint) := by
  have restored := hidden.patch_eq (List.mem_of_getElem? present) enabled
  refine ⟨hidden.noTransient, ?_⟩
  simp only [BreakpointState.switchedOff, writes, if_true, restored]
  apply hidden.sound.restore
  · intro site siteMem
    rcases mem_sites.mp siteMem with ⟨other, mem, otherEnabled, rfl⟩
    rcases List.mem_or_eq_of_mem_set mem with old | rfl
    · apply mem_sites.mpr
      exact ⟨other, old, otherEnabled, rfl⟩
    · simp at otherEnabled
  · intro site siteMem elsewhere
    rcases mem_sites.mp siteMem with ⟨other, mem, otherEnabled, rfl⟩
    refine mem_sites.mpr ⟨other, mem_set_of_ne present mem ?_, otherEnabled, rfl⟩
    rintro rfl
    exact elsewhere rfl

theorem Hidden.perform (hidden : Hidden original state)
    (succeeds : AccessesSucceed outcome state call)
    (performed : state.perform outcome call = some next) : Hidden original next := by
  rcases perform_cases hidden.noTransient performed with
    ⟨address, callback, patch, -, rfl⟩ | rfl |
    ⟨index, breakpoint, request, present, disabled, rfl⟩ |
    ⟨index, breakpoint, request, present, enabled, rfl⟩
  · refine ⟨hidden.noTransient, ?_⟩
    simpa only [sites_append_disabled] using hidden.sound
  · exact hidden
  · have accesses := (succeeds _ _ breakpoint request present).1 disabled rfl
    exact hidden.switchedOn present disabled accesses.1 accesses.2
  · have writes := (succeeds _ _ breakpoint request present).2 enabled rfl
    exact hidden.switchedOff present enabled writes

theorem hidden_of_run {calls : List BreakpointCall}
    (reached : Transition.run (perform .success) (initial original) calls = some state) :
    Hidden original state := by
  refine Transition.invariant_of_run (Hidden original) ?_ (hidden_initial original) reached
  intro before call after hidden performed
  exact hidden.perform (accessesSucceed_success before call) performed

def onePatch : List BreakpointCall :=
  [.createBreakpoint 0x1000#64 none 0#8, .enable (.regular 0) true]

/-- Whatever breakpoints exist, the debugger reads the original memory. -/
theorem read_original {original : Memory} {calls : List BreakpointCall} {state : BreakpointState}
    (reached : Transition.run (perform .success) (initial original) calls = some state)
    (dst : List Byte) (src : Address) (small : dst.length < 2 ^ 31) :
    state.read true dst src = (window original src dst.length, (dst.length : Int)) := by
  simp only [read_eq_window state dst src small, (hidden_of_run reached).view_eq]

theorem read_original_across_patch :
    ∃ state, Transition.run (perform .success) (initial fun _ => 0x90#8) onePatch = some state ∧
      state.read true [0#8, 0#8] 0xFFF#64 = (window (fun _ => 0x90#8) 0xFFF#64 2, 2) := by
  obtain ⟨state, reached⟩ : ∃ state, Transition.run (perform .success)
      (initial fun _ => 0x90#8) onePatch = some state := ⟨_, rfl⟩
  exact ⟨state, reached, read_original reached [0#8, 0#8] 0xFFF#64 (by decide)⟩

/-- No address without an enabled breakpoint is left patched. -/
theorem no_residue {original : Memory} {calls : List BreakpointCall} {state : BreakpointState}
    (reached : Transition.run (perform .success) (initial original) calls = some state) :
    (∀ address, (∀ breakpoint ∈ state.breakpoints, breakpoint.enabled = true →
        breakpoint.address ≠ address) → state.memory address = original address) ∧
      ((∀ breakpoint ∈ state.breakpoints, breakpoint.enabled = false) →
        state.memory = original) := by
  have hidden := hidden_of_run reached
  refine ⟨fun address => hidden.memory_eq, ?_⟩
  intro allDisabled
  funext address
  apply hidden.memory_eq
  intro breakpoint mem enabled
  simp [allDisabled breakpoint mem] at enabled

theorem no_residue_after_disable :
    ∃ state, Transition.run (perform .success) (initial fun _ => 0x90#8)
        (onePatch ++ [.disable (.regular 0)]) = some state ∧ state.memory = fun _ => 0x90#8 := by
  obtain ⟨state, reached, disabled⟩ : ∃ state, Transition.run (perform .success)
      (initial fun _ => 0x90#8) (onePatch ++ [.disable (.regular 0)]) = some state ∧
      ∀ breakpoint ∈ state.breakpoints, breakpoint.enabled = false := ⟨_, rfl, by decide⟩
  exact ⟨state, reached, (no_residue reached).2 disabled⟩

end RustDbg.BreakpointState
