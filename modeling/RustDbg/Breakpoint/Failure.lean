import Mathlib.Data.List.Nodup
import RustDbg.Breakpoint.Arming

/-!
# Failed accesses

`MDBDebugger::read` reports a failure as -1 and `MDBDebugger::write` does not
report one at all, so `MDBBreakpoint::enable` takes every access for a success.
Breakpoints at pairwise distinct addresses stay in step with the memory along
exactly those sequences of switches in which no access needed by a switch fails.
-/

namespace RustDbg.BreakpointState

/-- A call of `enable`, with the outcome of the Mach calls it makes. -/
structure Attempt where
  ref : BreakpointRef
  flag : Bool
  outcome : AccessOutcome
deriving DecidableEq, Repr

def attempt (state : BreakpointState) (switch : Attempt) : Option BreakpointState :=
  state.perform switch.outcome (.enable switch.ref switch.flag)

/-- Disabled breakpoints at pairwise distinct addresses over untouched memory. -/
structure Unswitched (original : Memory) (state : BreakpointState) : Prop where
  memory_eq : state.memory = original
  noTransient : state.transientBreakpoints = []
  disabled : ∀ breakpoint ∈ state.breakpoints, breakpoint.enabled = false
  distinct : (state.breakpoints.map (·.address)).Nodup

/-- Flag, saved byte and raw byte of every breakpoint agree. -/
def InStep (original : Memory) (state : BreakpointState) : Prop :=
  ∀ breakpoint ∈ state.breakpoints,
    (breakpoint.enabled = true → state.memory breakpoint.address = int_3 ∧
      breakpoint.patch = original breakpoint.address) ∧
    (breakpoint.enabled = false → state.memory breakpoint.address = original breakpoint.address)

/-- A switch whose read or write fails leaves the flag of the breakpoint as it was. -/
def FailureKeepsFlag (state : BreakpointState) (switch : Attempt) : Prop :=
  ∀ breakpoint next, state.deref switch.ref = some breakpoint → attempt state switch = some next →
    (breakpoint.enabled = false → switch.flag = true →
      switch.outcome.readOk = false ∨ switch.outcome.writes = false →
      ∃ after, next.deref switch.ref = some after ∧ after.enabled = false) ∧
    (breakpoint.enabled = true → switch.flag = false → switch.outcome.writes = false →
      ∃ after, next.deref switch.ref = some after ∧ after.enabled = true)

/-- The accesses of the attempt, if it makes any, succeed. -/
def Attempt.Succeeds (state : BreakpointState) (switch : Attempt) : Prop :=
  AccessesSucceed switch.outcome state (.enable switch.ref switch.flag)

variable {original : Memory} {state next : BreakpointState} {switch : Attempt}

/-- What holds as long as no access has failed. -/
structure Steady (original : Memory) (state : BreakpointState) : Prop where
  hidden : Hidden original state
  armed : Armed state
  distinct : (state.breakpoints.map (·.address)).Nodup

theorem Unswitched.steady (start : Unswitched original state) : Steady original state := by
  have noSites : sites state.breakpoints = [] := by
    simpa [sites] using start.disabled
  refine ⟨⟨start.noTransient, ?_⟩, ?_, start.distinct⟩
  · simp only [noSites, start.memory_eq]
    exact Overlay.Sound.nil original
  · intro breakpoint mem enabled
    simp [start.disabled breakpoint mem] at enabled

theorem index_eq_of_address_eq {breakpoints : List MDBBreakpoint}
    (distinct : (breakpoints.map (·.address)).Nodup) {left right : MDBBreakpoint} {i j : Nat}
    (leftAt : breakpoints[i]? = some left) (rightAt : breakpoints[j]? = some right)
    (shared : left.address = right.address) : i = j := by
  rcases List.getElem?_eq_some_iff.mp leftAt with ⟨iBound, rfl⟩
  rcases List.getElem?_eq_some_iff.mp rightAt with ⟨jBound, rfl⟩
  have iBound' : i < (breakpoints.map (·.address)).length := by simpa using iBound
  have jBound' : j < (breakpoints.map (·.address)).length := by simpa using jBound
  have entries : (breakpoints.map (·.address))[i] = (breakpoints.map (·.address))[j] := by
    simpa using shared
  exact distinct.getElem_inj_iff.mp entries

theorem Steady.inStep (steady : Steady original state) : InStep original state := by
  intro breakpoint mem
  constructor
  · intro enabled
    exact ⟨steady.armed breakpoint mem enabled, steady.hidden.patch_eq mem enabled⟩
  · intro disabled
    apply steady.hidden.memory_eq
    intro other otherMem otherEnabled shared
    rcases List.inj_on_of_nodup_map steady.distinct otherMem mem shared with rfl
    simp [otherEnabled] at disabled

theorem map_address_set {breakpoints : List MDBBreakpoint} {index : Nat}
    {old new : MDBBreakpoint} (present : breakpoints[index]? = some old)
    (same : new.address = old.address) :
    (breakpoints.set index new).map (·.address) = breakpoints.map (·.address) := by
  rcases List.getElem?_eq_some_iff.mp present with ⟨bound, rfl⟩
  have bound' : index < (breakpoints.map (·.address)).length := by simpa using bound
  have entry : (breakpoints.map (·.address))[index] = breakpoints[index].address := by simp
  simp only [List.map_set, same, ← entry, List.set_getElem_self]

theorem addresses_switchedOn {outcome : AccessOutcome} {index : Nat} {breakpoint : MDBBreakpoint}
    (present : state.breakpoints[index]? = some breakpoint) :
    (state.switchedOn outcome index breakpoint).breakpoints.map (·.address) =
      state.breakpoints.map (·.address) :=
  map_address_set present rfl

theorem addresses_switchedOff {outcome : AccessOutcome} {index : Nat} {breakpoint : MDBBreakpoint}
    (present : state.breakpoints[index]? = some breakpoint) :
    (state.switchedOff outcome index breakpoint).breakpoints.map (·.address) =
      state.breakpoints.map (·.address) :=
  map_address_set present rfl

theorem attempt_cases (noTransient : state.transientBreakpoints = [])
    (attempted : attempt state switch = some next) :
    next = state ∨
    (∃ index breakpoint, switch.ref = .regular index ∧ switch.flag = true ∧
      state.breakpoints[index]? = some breakpoint ∧ breakpoint.enabled = false ∧
      next = state.switchedOn switch.outcome index breakpoint) ∨
    (∃ index breakpoint, switch.ref = .regular index ∧ switch.flag = false ∧
      state.breakpoints[index]? = some breakpoint ∧ breakpoint.enabled = true ∧
      next = state.switchedOff switch.outcome index breakpoint) := by
  rcases perform_cases noTransient attempted with
    ⟨address, callback, patch, call, -⟩ | same | ⟨index, breakpoint, request, rest⟩ |
    ⟨index, breakpoint, request, rest⟩
  · simp at call
  · exact Or.inl same
  · simp only [BreakpointCall.request, Option.some.injEq, Prod.mk.injEq] at request
    apply Or.inr
    exact Or.inl ⟨index, breakpoint, request.1, request.2, rest⟩
  · simp only [BreakpointCall.request, Option.some.injEq, Prod.mk.injEq] at request
    apply Or.inr
    exact Or.inr ⟨index, breakpoint, request.1, request.2, rest⟩

theorem Steady.attempt (steady : Steady original state) (succeeds : switch.Succeeds state)
    (attempted : attempt state switch = some next) : Steady original next := by
  have hidden := steady.hidden.perform succeeds attempted
  rcases attempt_cases steady.hidden.noTransient attempted with
    rfl | ⟨index, breakpoint, ref_eq, flag_eq, present, disabled, rfl⟩ |
    ⟨index, breakpoint, ref_eq, flag_eq, present, enabled, rfl⟩
  · exact steady
  · have pointed : state.deref switch.ref = some breakpoint := by rw [ref_eq]; exact present
    have accesses := (succeeds _ _ breakpoint rfl pointed).1 disabled flag_eq
    refine ⟨hidden, steady.armed.switchedOn accesses.2, ?_⟩
    rw [addresses_switchedOn present]
    exact steady.distinct
  · have pointed : state.deref switch.ref = some breakpoint := by rw [ref_eq]; exact present
    have writes := (succeeds _ _ breakpoint rfl pointed).2 enabled flag_eq
    refine ⟨hidden, ?_, ?_⟩
    · apply (armed_switchedOff_iff steady.hidden steady.armed present enabled writes).mpr
      intro other otherBreakpoint different found _ shared
      exact absurd (index_eq_of_address_eq steady.distinct found present shared) different
    · rw [addresses_switchedOff present]
      exact steady.distinct

theorem attempt_of_ne {index : Nat} {breakpoint : MDBBreakpoint}
    (ref_eq : switch.ref = .regular index) (present : state.breakpoints[index]? = some breakpoint)
    (changes : breakpoint.enabled ≠ switch.flag) :
    ∃ next, attempt state switch = some next ∧
      ∀ after, next.deref switch.ref = some after → after.enabled = switch.flag := by
  have bound := (List.getElem?_eq_some_iff.mp present).1
  have pointed : (state.deref (.regular index)).isSome := by simp [deref, present]
  have attempted : attempt state switch =
      some (state.enable switch.outcome (.regular index) switch.flag) := by
    rw [attempt, perform_of_request rfl, ref_eq, if_pos pointed]
  refine ⟨_, attempted, ?_⟩
  intro after found
  rw [ref_eq] at found
  cases flag_eq : switch.flag with
  | true =>
      have disabled : breakpoint.enabled = false := by simpa [flag_eq] using changes
      rw [flag_eq, enable_true_of_disabled present disabled] at found
      simp only [deref, switchedOn, List.getElem?_set_self bound, Option.some.injEq] at found
      rw [← found]
  | false =>
      have enabled : breakpoint.enabled = true := by simpa [flag_eq] using changes
      rw [flag_eq, enable_false_of_enabled present enabled] at found
      simp only [deref, switchedOff, List.getElem?_set_self bound, Option.some.injEq] at found
      rw [← found]

/-- The flag ends up where it was asked to be, so a failure never keeps it. -/
theorem failureKeepsFlag_iff_succeeds (noTransient : state.transientBreakpoints = []) :
    FailureKeepsFlag state switch ↔ switch.Succeeds state := by
  constructor
  · intro keeps ref flag breakpoint request pointed
    simp only [BreakpointCall.request, Option.some.injEq, Prod.mk.injEq] at request
    rcases request with ⟨rfl, rfl⟩
    have regular : ∃ index, switch.ref = .regular index := by
      cases ref_eq : switch.ref with
      | regular index => exact ⟨index, rfl⟩
      | transient index => simp [ref_eq, deref, noTransient] at pointed
    rcases regular with ⟨index, ref_eq⟩
    have present : state.breakpoints[index]? = some breakpoint := by
      simpa [ref_eq, deref] using pointed
    constructor
    · intro disabled flag_eq
      rcases attempt_of_ne ref_eq present (by simp [disabled, flag_eq]) with
        ⟨next, attempted, switched⟩
      by_contra failed
      have failure : switch.outcome.readOk = false ∨ switch.outcome.writes = false := by
        by_contra succeeded
        simp only [not_or, Bool.not_eq_false] at succeeded
        exact failed succeeded
      rcases (keeps breakpoint next pointed attempted).1 disabled flag_eq failure with
        ⟨kept, keptFound, keptFlag⟩
      simp [switched kept keptFound, flag_eq] at keptFlag
    · intro enabled flag_eq
      rcases attempt_of_ne ref_eq present (by simp [enabled, flag_eq]) with
        ⟨next, attempted, switched⟩
      by_contra failed
      rcases (keeps breakpoint next pointed attempted).2 enabled flag_eq (by simpa using failed)
        with ⟨kept, keptFound, keptFlag⟩
      simp [switched kept keptFound, flag_eq] at keptFlag
  · intro succeeds breakpoint next pointed _
    have accesses := succeeds _ _ breakpoint rfl pointed
    constructor
    · rintro disabled flag_eq (readFailed | writeFailed)
      · simp [(accesses.1 disabled flag_eq).1] at readFailed
      · simp [(accesses.1 disabled flag_eq).2] at writeFailed
    · intro enabled flag_eq writeFailed
      simp [accesses.2 enabled flag_eq] at writeFailed

/--
Breakpoints stay in step with the memory, and failed switches keep their flags, iff
no access needed by a switch fails.
-/
theorem inStep_iff_succeeds {original : Memory} {start : BreakpointState}
    (unswitched : Unswitched original start) (attempts : List Attempt) :
    ((∀ front state, front <+: attempts → Transition.run attempt start front = some state →
        InStep original state) ∧
      Transition.StepsSatisfy attempt FailureKeepsFlag start attempts) ↔
      Transition.StepsSatisfy attempt (fun state switch => switch.Succeeds state) start
        attempts := by
  rw [Transition.forall_reached_iff, and_iff_right unswitched.steady.inStep,
    ← Transition.stepsSatisfy_and]
  refine Transition.stepsSatisfy_congr (Steady original) ?_ ?_ unswitched.steady attempts
  · intro state switch steady
    rw [failureKeepsFlag_iff_succeeds steady.hidden.noTransient]
    apply and_iff_right_of_imp
    intro succeeds next attempted
    exact (steady.attempt succeeds attempted).inStep
  · intro state switch next steady succeeds attempted
    exact steady.attempt succeeds attempted

def single (patch : Byte) : BreakpointState :=
  ⟨fun _ => 0x90#8, [⟨0x1000#64, patch, false, none⟩], []⟩

theorem unswitched_single (patch : Byte) : Unswitched (fun _ => 0x90#8) (single patch) :=
  ⟨rfl, rfl, by simp [single], by simp [single]⟩

/-- Two breakpoints, of which the second is on a page that cannot be read. -/
def pair : BreakpointState :=
  ⟨fun _ => 0x90#8, [⟨0x1000#64, 0#8, false, none⟩, ⟨0x2000#64, 0#8, false, none⟩], []⟩

theorem unswitched_pair : Unswitched (fun _ => 0x90#8) pair :=
  ⟨rfl, rfl, by decide, by decide⟩

def enablePair : List Attempt :=
  [⟨.regular 0, true, .success⟩, ⟨.regular 1, true, ⟨false, false, true, true⟩⟩]

/-- The first switch succeeds and the second does not, so the breakpoints get out of step. -/
theorem inStep_iff_succeeds_pair :
    ¬((∀ front state, front <+: enablePair → Transition.run attempt pair front = some state →
        InStep (fun _ => 0x90#8) state) ∧
      Transition.StepsSatisfy attempt FailureKeepsFlag pair enablePair) := by
  rw [inStep_iff_succeeds unswitched_pair]
  rintro ⟨_, later⟩
  rcases later _ rfl with ⟨succeeds, _⟩
  have needed := succeeds (.regular 1) true ⟨0x2000#64, 0#8, false, none⟩ rfl rfl
  cases (needed.1 rfl rfl).1

/--
On a protected page the read fails and the second write does not: the flag is set
over a byte that was never saved.
-/
theorem not_inStep_of_failed_read :
    Unswitched (fun _ => 0x90#8) (single 0#8) ∧
      ∃ state, Transition.run attempt (single 0#8)
          [⟨.regular 0, true, ⟨false, false, true, true⟩⟩] = some state ∧
        ¬ InStep (fun _ => 0x90#8) state := by
  refine ⟨unswitched_single 0#8, _, rfl, ?_⟩
  intro inStep
  have saved := (inStep ⟨0x1000#64, 0#8, true, none⟩ (by decide)).1 rfl
  apply absurd saved.2
  decide

end RustDbg.BreakpointState
