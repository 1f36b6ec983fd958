import RustDbg.Breakpoint.Failure
import RustDbg.Breakpoint.Find

/-!
# Breakpoints placed in a program

Breakpoints at distinct addresses turn the memory of a program into that memory with
`int3` at the addresses of the enabled ones. The file follows this through switching a
breakpoint off and on again and through writes of the program beside the breakpoints.
-/

namespace RustDbg.BreakpointState

variable {placed : List Address} {original : Memory} {state : BreakpointState} {index : Nat}
  {breakpoint : MDBBreakpoint} {address : Address}

/-- Breakpoints at distinct addresses over `original`, enabled exactly at `placed`. -/
structure Placed (placed : List Address) (original : Memory) (state : BreakpointState) : Prop where
  steady : Steady original state
  enabledAt : ∀ address, address ∈ placed ↔ state.EnabledAt address

theorem enabledAt_iff (noTransient : state.transientBreakpoints = []) :
    state.EnabledAt address ↔ ∃ (index : Nat) (breakpoint : MDBBreakpoint),
      state.breakpoints[index]? = some breakpoint ∧ breakpoint.enabled = true ∧
        breakpoint.address = address := by
  constructor
  · rintro ⟨ref, breakpoint, pointed, enabled, here⟩
    cases ref with
    | regular index => exact ⟨index, breakpoint, pointed, enabled, here⟩
    | transient index => simp [deref, noTransient] at pointed
  · rintro ⟨index, breakpoint, present, enabled, here⟩
    exact ⟨.regular index, breakpoint, present, enabled, here⟩

namespace Placed

theorem noTransient (here : Placed placed original state) : state.transientBreakpoints = [] :=
  here.steady.hidden.noTransient

theorem congr (here : Placed placed original state) {placed' : List Address}
    (same : ∀ address, address ∈ placed' ↔ address ∈ placed) : Placed placed' original state :=
  ⟨here.steady, fun address => (same address).trans (here.enabledAt address)⟩

/-- A single breakpoint that is enabled and has saved the byte of the program. -/
theorem singleton (table : state.breakpoints = [⟨address, original address, true, none⟩])
    (noTransient : state.transientBreakpoints = [])
    (memory_eq : state.memory = fun place => if place ∈ [address] then int_3 else original place) :
    Placed [address] original state where
  steady := by
    refine ⟨⟨noTransient, ?_, ?_⟩, ?_, ?_⟩
    · intro site mem
      rw [table] at mem
      obtain rfl : site = (address, original address) := List.mem_singleton.mp mem
      rfl
    · intro place uncovered
      rw [table] at uncovered
      rw [memory_eq]
      refine if_neg fun mem => ?_
      exact uncovered (address, original address) (List.mem_singleton_self _)
        (List.mem_singleton.mp mem).symm
    · intro breakpoint mem _
      rw [table] at mem
      rcases List.mem_singleton.mp mem with rfl
      rw [memory_eq]
      exact if_pos (List.mem_singleton_self _)
    · rw [table]
      exact List.nodup_singleton _
  enabledAt place := by
    rw [enabledAt_iff noTransient, table]
    constructor
    · intro mem
      exact ⟨0, _, rfl, rfl, (List.mem_singleton.mp mem).symm⟩
    · rintro ⟨index, breakpoint, present, -, rfl⟩
      rcases List.mem_singleton.mp (List.mem_of_getElem? present) with rfl
      exact List.mem_singleton_self _

theorem distinctAddresses (here : Placed placed original state) : state.DistinctAddresses := by
  simp only [DistinctAddresses, here.noTransient, List.append_nil]
  exact here.steady.distinct

theorem memory_eq (here : Placed placed original state) :
    state.memory = fun address => if address ∈ placed then int_3 else original address := by
  funext address
  split
  · rename_i mem
    rcases (enabledAt_iff here.noTransient).mp ((here.enabledAt address).mp mem) with
      ⟨index, breakpoint, present, enabled, rfl⟩
    exact here.steady.armed breakpoint (List.mem_of_getElem? present) enabled
  · rename_i absent
    apply here.steady.hidden.memory_eq
    intro breakpoint mem enabled same
    rcases List.getElem?_of_mem mem with ⟨index, present⟩
    exact absent ((here.enabledAt address).mpr
      ((enabledAt_iff here.noTransient).mpr ⟨index, breakpoint, present, enabled, same⟩))

/-- The program writes, but not at the enabled breakpoints. -/
theorem replace (here : Placed placed original state) {original' : Memory}
    (agree : ∀ address ∈ placed, original' address = original address)
    {state' : BreakpointState} (breakpoints : state'.breakpoints = state.breakpoints)
    (transientBreakpoints : state'.transientBreakpoints = state.transientBreakpoints)
    (memory : state'.memory =
      fun address => if address ∈ placed then int_3 else original' address) :
    Placed placed original' state' := by
  have noTransient : state'.transientBreakpoints = [] := transientBreakpoints.trans here.noTransient
  have enabledAt (address : Address) : address ∈ placed ↔ state'.EnabledAt address := by
    simp only [enabledAt_iff noTransient, breakpoints, ← enabledAt_iff here.noTransient]
    exact here.enabledAt address
  have placedAt {breakpoint : MDBBreakpoint} (mem : breakpoint ∈ state'.breakpoints)
      (enabled : breakpoint.enabled = true) : breakpoint.address ∈ placed := by
    rcases List.getElem?_of_mem mem with ⟨index, present⟩
    exact (enabledAt _).mpr
      ((enabledAt_iff noTransient).mpr ⟨index, breakpoint, present, enabled, rfl⟩)
  refine ⟨⟨⟨noTransient, ?_, ?_⟩, ?_, ?_⟩, enabledAt⟩
  · intro site siteMem
    rcases mem_sites.mp siteMem with ⟨breakpoint, mem, enabled, rfl⟩
    rw [agree _ (placedAt mem enabled)]
    exact here.steady.hidden.patch_eq (breakpoints ▸ mem) enabled
  · intro address uncovered
    rw [memory]
    refine if_neg fun mem => ?_
    rcases (enabledAt_iff noTransient).mp ((enabledAt address).mp mem) with
      ⟨index, breakpoint, present, enabled, same⟩
    exact uncovered (breakpoint.address, breakpoint.patch)
      (mem_sites.mpr ⟨breakpoint, List.mem_of_getElem? present, enabled, rfl⟩) same
  · intro breakpoint mem enabled
    rw [memory]
    apply if_pos
    exact placedAt mem enabled
  · rw [breakpoints]
    exact here.steady.distinct

/-! ## Switching -/

theorem steady_enable (steady : Steady original state)
    (present : state.breakpoints[index]? = some breakpoint) (flag : Bool) :
    Steady original (state.enable .success (.regular index) flag) := by
  have attempted : attempt state ⟨.regular index, flag, .success⟩ =
      some (state.enable .success (.regular index) flag) := by
    simp [attempt, perform, deref, present]
  have succeeds : Attempt.Succeeds state ⟨.regular index, flag, .success⟩ :=
    accessesSucceed_success state _
  exact steady.attempt succeeds attempted

theorem getElem?_set_eq_some_iff {breakpoints : List MDBBreakpoint}
    {old new other : MDBBreakpoint} (present : breakpoints[index]? = some old) {position : Nat} :
    (breakpoints.set index new)[position]? = some other ↔
      (position = index ∧ new = other) ∨
        (position ≠ index ∧ breakpoints[position]? = some other) := by
  have bound := (List.getElem?_eq_some_iff.mp present).1
  by_cases same : position = index
  · subst same
    simp [bound]
  · simp [same, Ne.symm same]

theorem disable (here : Placed placed original state)
    (present : state.breakpoints[index]? = some breakpoint) (enabled : breakpoint.enabled = true) :
    Placed (placed.filter (· ≠ breakpoint.address)) original
        (state.enable .success (.regular index) false) ∧
      (state.enable .success (.regular index) false).breakpoints[index]? =
        some { breakpoint with enabled := false } := by
  have steady := steady_enable here.steady present false
  have bound := (List.getElem?_eq_some_iff.mp present).1
  have breakpoints : (state.enable .success (.regular index) false).breakpoints =
      state.breakpoints.set index { breakpoint with enabled := false } := by
    rw [enable_false_of_enabled present enabled]
    rfl
  refine ⟨⟨steady, ?_⟩, by rw [breakpoints]; exact List.getElem?_set_self bound⟩
  intro address
  rw [List.mem_filter, here.enabledAt, enabledAt_iff here.noTransient,
    enabledAt_iff steady.hidden.noTransient, breakpoints]
  simp only [getElem?_set_eq_some_iff present]
  constructor
  · rintro ⟨⟨position, other, found, otherEnabled, rfl⟩, apart⟩
    have different : position ≠ index := by
      rintro rfl
      rcases Option.some.inj (found.symm.trans present) with rfl
      simp at apart
    exact ⟨position, other, Or.inr ⟨different, found⟩, otherEnabled, rfl⟩
  · rintro ⟨position, other, ⟨-, rfl⟩ | ⟨different, found⟩, otherEnabled, rfl⟩
    · simp at otherEnabled
    · refine ⟨⟨position, other, found, otherEnabled, rfl⟩, ?_⟩
      have apart : other.address ≠ breakpoint.address := fun shared =>
        different (index_eq_of_address_eq here.steady.distinct found present shared)
      simpa using apart

theorem enable (here : Placed placed original state)
    (present : state.breakpoints[index]? = some breakpoint)
    (disabled : breakpoint.enabled = false) :
    Placed (breakpoint.address :: placed) original
      (state.enable .success (.regular index) true) := by
  have steady := steady_enable here.steady present true
  refine ⟨steady, ?_⟩
  intro address
  rw [List.mem_cons, here.enabledAt, enabledAt_iff here.noTransient,
    enabledAt_iff steady.hidden.noTransient, enable_true_of_disabled present disabled]
  simp only [switchedOn, getElem?_set_eq_some_iff present]
  constructor
  · rintro (rfl | ⟨position, other, found, otherEnabled, rfl⟩)
    · exact ⟨index, _, Or.inl ⟨rfl, rfl⟩, rfl, rfl⟩
    · have different : position ≠ index := by
        rintro rfl
        rcases Option.some.inj (found.symm.trans present) with rfl
        simp [disabled] at otherEnabled
      exact ⟨position, other, Or.inr ⟨different, found⟩, otherEnabled, rfl⟩
  · rintro ⟨position, other, ⟨-, rfl⟩ | ⟨-, found⟩, otherEnabled, rfl⟩
    · exact Or.inl rfl
    · exact Or.inr ⟨position, other, found, otherEnabled, rfl⟩

/-- A breakpoint that has just been created is enabled nowhere. -/
theorem createBreakpoint (here : Placed placed original state)
    (fresh : address ∉ state.breakpoints.map (·.address)) (patch : Byte) :
    Placed placed original (state.createBreakpoint address none patch).2 := by
  have noTransient : (state.createBreakpoint address none patch).2.transientBreakpoints = [] :=
    here.noTransient
  refine ⟨⟨⟨noTransient, ?_⟩, ?_, ?_⟩, ?_⟩
  · simp only [BreakpointState.createBreakpoint, sites_append_disabled]
    exact here.steady.hidden.sound
  · intro breakpoint mem enabled
    rcases List.mem_append.mp mem with before | new
    · exact here.steady.armed breakpoint before enabled
    · rw [List.mem_singleton.mp new] at enabled
      cases enabled
  · simp only [BreakpointState.createBreakpoint, List.map_append, List.map_cons, List.map_nil]
    apply here.steady.distinct.append (List.nodup_singleton _)
    intro other before new
    rw [List.mem_singleton.mp new] at before
    exact fresh before
  · intro other
    rw [here.enabledAt, enabledAt_iff here.noTransient, enabledAt_iff noTransient]
    simp only [BreakpointState.createBreakpoint]
    constructor
    · rintro ⟨index, breakpoint, present, enabled, rfl⟩
      have bound := (List.getElem?_eq_some_iff.mp present).1
      exact ⟨index, breakpoint, (List.getElem?_append_left bound).trans present, enabled, rfl⟩
    · rintro ⟨index, breakpoint, present, enabled, rfl⟩
      rcases List.mem_append.mp (List.mem_of_getElem? present) with before | new
      · rcases List.getElem?_of_mem before with ⟨earlier, presentBefore⟩
        exact ⟨earlier, breakpoint, presentBefore, enabled, rfl⟩
      · rw [List.mem_singleton.mp new] at enabled
        cases enabled

end Placed

end RustDbg.BreakpointState
