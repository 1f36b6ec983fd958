import RustDbg.Code.Overlap

/-!
# When scanning terminates

A procedure that is scanned again is skipped if it has left a region, so scanning can go on
forever only along calls that lead back to where they came from through procedures without a
return. On the way there and around, no procedure may begin in the region of an earlier one.
-/

namespace RustDbg

namespace ScanInput

open Traversal Relation

/-! ## The call graph -/

/--
A call in the call graph, with the regions that are recorded then: if the procedure begins in
none of them, its own is added and it leads to its call targets.
-/
structure Follows (input : ScanInput) (call next : List MDBCodeRegion × Address) : Prop where
  outside : getRegion call.1 call.2 = none
  regions : next.1 = call.1 ++ (input.region call.2).toList
  target : next.2 ∈ (input.procedure call.2).callTargets

/-- A procedure outside of some regions that has no return calls another one. -/
structure FollowsOn (input : ScanInput) (regions : List MDBCodeRegion)
    (address target : Address) : Prop where
  outside : getRegion regions address = none
  endless : (input.procedure address).size = none
  target : target ∈ (input.procedure address).callTargets

/--
Calls lead from the start to a cycle of procedures without a return, past the given regions and
those of the procedures on the way.
-/
def Loops (input : ScanInput) (regions : List MDBCodeRegion) (start : Address) : Prop :=
  ∃ call, ReflTransGen input.Follows (regions, start) call ∧
    TransGen (input.FollowsOn call.1) call.2 call.2

/-- `scanProcedure` returns, whatever its calls find in their buffers and what else is recorded. -/
def AlwaysReturns (input : ScanInput) (regions : List MDBCodeRegion) (start : Address) : Prop :=
  ∀ (buffers : Buffers) (more : List MDBCodeRegion), ∃ depth after,
    input.scanProcedureWith buffers depth (regions ++ more) start = some after

/-- A procedure can be reached through calls. -/
def LeadsTo (input : ScanInput) : Address → Address → Prop :=
  ReflTransGen fun address target => target ∈ (input.procedure address).callTargets

/-- No procedure that is reached begins in what is taken for the region of another one. -/
def LiesApart (input : ScanInput) (start : Address) : Prop :=
  ∀ address other region, input.LeadsTo start address → input.LeadsTo start other →
    input.region address = some region → region.contains other → other = address

variable {input : ScanInput} {buffers : Buffers} {regions passed more : List MDBCodeRegion}
  {start address target : Address} {unused other : Address → Nat → Byte}
  {call next : List MDBCodeRegion × Address}

theorem getRegion_eq_none_of_subset (subset : passed ⊆ more)
    (outside : getRegion more address = none) : getRegion passed address = none := by
  simp only [getRegion, List.find?_eq_none] at outside ⊢
  intro region present
  exact outside region (subset present)

theorem FollowsOn.follows (follows : input.FollowsOn regions address target) :
    input.Follows (regions, address) (regions, target) where
  outside := follows.outside
  regions := by simp [region, follows.endless]
  target := follows.target

theorem Follows.of_subset (follows : input.Follows call next) (subset : passed ⊆ call.1) :
    input.Follows (passed, call.2) (passed ++ (input.region call.2).toList, next.2) :=
  ⟨getRegion_eq_none_of_subset subset follows.outside, rfl, follows.target⟩

theorem Follows.subset (follows : input.Follows call next) : call.1 ⊆ next.1 := by
  rw [follows.regions]
  exact List.subset_append_left _ _

/-! ## Calls of a scan in the call graph -/

/-- What is decoded at an address does not depend on what other buffers hold. -/
theorem procedure_holding (same : unused address = other address) :
    (input.holding unused).procedure address = (input.holding other).procedure address := by
  simp only [procedure, buffer, holding, same]

/-- Where a procedure can be read it does not depend on its own buffer either. -/
theorem procedure_holding_of_readable (readable : input.readable address = true) :
    (input.holding unused).procedure address = input.procedure address := by
  simp only [procedure, buffer, holding, BreakpointState.read, machVmReadOverwrite, readable,
    if_true, List.length_map, List.length_range]

theorem region_holding (same : unused address = other address) :
    (input.holding unused).region address = (input.holding other).region address := by
  simp only [region, procedure_holding same]
  rfl

theorem Follows.holding (follows : (input.holding unused).Follows call next)
    (same : unused call.2 = other call.2) : (input.holding other).Follows call next := by
  refine ⟨follows.outside, ?_, ?_⟩
  · rw [follows.regions, region_holding same]
  · rw [← procedure_holding same]
    exact follows.target

/-- A call in the call graph, if the buffer holds something suitable. -/
def MayFollow (input : ScanInput) (call next : List MDBCodeRegion × Address) : Prop :=
  ∃ unused, (input.holding unused).Follows call next

def MayFollowOn (input : ScanInput) (regions : List MDBCodeRegion)
    (address target : Address) : Prop :=
  ∃ unused, (input.holding unused).FollowsOn regions address target

section Calls

variable {first second : (List MDBCodeRegion × Nat) × Address}

theorem subset_of_evolves {state later : List MDBCodeRegion × Nat}
    (evolves : Evolves (input.enterWith buffers) state later) : state.1 ⊆ later.1 := by
  rcases adds_of_evolvesWith evolves with ⟨new, adds⟩
  rw [adds.appended]
  exact List.subset_append_left _ _

theorem length_le_of_evolvesWith {state later : List MDBCodeRegion × Nat}
    (evolves : Evolves (input.enterWith buffers) state later) :
    state.1.length ≤ later.1.length := by
  rcases adds_of_evolvesWith evolves with ⟨new, adds⟩
  rw [adds.appended, List.length_append]
  exact Nat.le_add_right _ _

/-- A call that a scan makes is one in the call graph, past fewer regions as well. -/
theorem exists_mayFollow_of_calls (calls : Calls (input.enterWith buffers) first second)
    (subset : passed ⊆ first.1.1) :
    ∃ further, input.MayFollow (passed, first.2) (further, second.2) ∧ further ⊆ second.1.1 := by
  rcases calls with ⟨entered, before, rest, enters, path⟩
  rcases enterWith_eq_some_iff.mp enters with ⟨outside, rfl, targets⟩
  have later := subset_of_evolves (path.evolves fun _ _ _ callee => callee.evolves)
  refine ⟨passed ++ ((input.holding (buffers first.1.2)).region first.2).toList,
    ⟨buffers first.1.2, getRegion_eq_none_of_subset subset outside, rfl, ?_⟩, ?_⟩
  · rw [← targets]
    exact List.mem_append_right _ List.mem_cons_self
  · apply List.append_subset.mpr
    constructor
    · exact List.Subset.trans (List.subset_append_of_subset_left _ subset) later
    · exact List.Subset.trans (List.subset_append_right _ _) later

theorem exists_mayFollow_of_reaches {state : List MDBCodeRegion × Nat}
    (reaches : Reaches (input.enterWith buffers) (state, start) first) :
    ∃ passed, ReflTransGen input.MayFollow (state.1, start) (passed, first.2) ∧
      passed ⊆ first.1.1 := by
  induction reaches with
  | refl => exact ⟨state.1, .refl, List.Subset.refl _⟩
  | tail _ calls ih =>
      rcases ih with ⟨passed, path, subset⟩
      rcases exists_mayFollow_of_calls calls subset with ⟨further, follows, furtherSubset⟩
      exact ⟨further, path.tail follows, furtherSubset⟩

/-- Where no region is recorded until the next call, the procedure has no return. -/
theorem mayFollowOn_of_calls (calls : Calls (input.enterWith buffers) first second)
    (subset : passed ⊆ first.1.1) (same : second.1.1.length ≤ first.1.1.length) :
    input.MayFollowOn passed first.2 second.2 ∧ second.1.1 = first.1.1 := by
  rcases calls with ⟨entered, before, rest, enters, path⟩
  rcases enterWith_eq_some_iff.mp enters with ⟨outside, rfl, targets⟩
  rcases adds_of_evolvesWith (path.evolves fun _ _ _ callee => callee.evolves) with ⟨new, adds⟩
  have lengths := congrArg List.length adds.appended
  simp only [List.length_append] at lengths
  have nothing : (input.holding (buffers first.1.2)).region first.2 = none := by
    cases found : (input.holding (buffers first.1.2)).region first.2 with
    | none => rfl
    | some region =>
        simp only [found, Option.toList_some, List.length_singleton] at lengths
        omega
  have endless : ((input.holding (buffers first.1.2)).procedure first.2).size = none := by
    simpa [region] using nothing
  refine ⟨⟨buffers first.1.2, getRegion_eq_none_of_subset subset outside, endless, ?_⟩, ?_⟩
  · rw [← targets]
    exact List.mem_append_right _ List.mem_cons_self
  · have nothingNew : new = [] := List.length_eq_zero_iff.mp (by omega)
    simp [adds.appended, nothing, nothingNew]

theorem transGen_mayFollowOn (path : TransGen (Calls (input.enterWith buffers)) first second)
    (subset : passed ⊆ first.1.1) (same : second.1.1.length ≤ first.1.1.length) :
    TransGen (input.MayFollowOn passed) first.2 second.2 ∧ second.1.1 = first.1.1 := by
  induction path with
  | single calls =>
      rcases mayFollowOn_of_calls calls subset same with ⟨follows, unchanged⟩
      exact ⟨.single follows, unchanged⟩
  | @tail middle second _ calls ih =>
      have grown := length_le_of_evolvesWith calls.evolves
      rcases ih (Nat.le_trans grown same) with ⟨earlier, unchanged⟩
      have subset' : passed ⊆ middle.1.1 := by rwa [unchanged]
      rcases mayFollowOn_of_calls calls subset' (by rwa [unchanged]) with ⟨follows, unchanged'⟩
      exact ⟨earlier.tail follows, unchanged'.trans unchanged⟩

/-- A scan that does not return comes to a cycle, if its buffers hold something suitable. -/
theorem exists_cycle_of_not_returns {state : List MDBCodeRegion × Nat}
    (stuck : ¬∃ after, Traversal.Returns (input.enterWith buffers) state start after) :
    ∃ call, ReflTransGen input.MayFollow (state.1, start) call ∧
      TransGen (input.MayFollowOn call.1) call.2 call.2 := by
  have bounded : ∀ later, Evolves (input.enterWith buffers) state later →
      later.1.length ≤ state.1.length + 2 ^ 64 := by
    intro later evolves
    rcases adds_of_evolvesWith evolves with ⟨new, adds⟩
    exact adds.length_le
  rcases exists_repeated_of_not_returns (fun state => state.1.length) _ bounded stuck with
    ⟨call, again, reaches, path, sameNode, sameLength⟩
  rcases exists_mayFollow_of_reaches reaches with ⟨passed, leads, subset⟩
  have cycle := (transGen_mayFollowOn path subset (Nat.le_of_eq sameLength)).1
  rw [sameNode] at cycle
  exact ⟨(passed, call.2), leads, cycle⟩

end Calls

/-! ## The same buffers all along -/

/-- A call in the call graph that goes on to a target chosen for each procedure. -/
def advance (input : ScanInput) (next : Address → Address)
    (call : List MDBCodeRegion × Address) : List MDBCodeRegion × Address :=
  (call.1 ++ (input.region call.2).toList, next call.2)

/-- The chosen targets can be followed without end. -/
def Orbits (input : ScanInput) (next : Address → Address)
    (call : List MDBCodeRegion × Address) : Prop :=
  ∀ k, input.Follows ((input.advance next)^[k] call) ((input.advance next)^[k + 1] call)

section Orbits

variable {choice : Address → Address}

theorem subset_iterate_advance {i j : Nat} (order : i ≤ j) :
    ((input.advance choice)^[i] call).1 ⊆ ((input.advance choice)^[j] call).1 := by
  induction order with
  | refl => exact List.Subset.refl _
  | step _ ih =>
      rw [Function.iterate_succ_apply']
      exact List.subset_append_of_subset_left _ ih

theorem snd_iterate_advance (k : Nat) :
    ((input.advance choice)^[k] call).2 = choice^[k] call.2 := by
  induction k with
  | zero => simp only [Function.iterate_zero_apply]
  | succ k ih =>
      rw [Function.iterate_succ_apply', Function.iterate_succ_apply', ← ih]
      rfl

theorem Orbits.drop (orbits : input.Orbits choice call) (j : Nat) :
    input.Orbits choice ((input.advance choice)^[j] call) := by
  intro k
  rw [← Function.iterate_add_apply, ← Function.iterate_add_apply, Nat.add_right_comm]
  exact orbits (k + j)

/-- From fewer regions on the same targets can be followed. -/
theorem Orbits.of_subset (orbits : input.Orbits choice call) (subset : passed ⊆ call.1) :
    input.Orbits choice (passed, call.2) := by
  have tracks : ∀ k, ((input.advance choice)^[k] (passed, call.2)).2 =
      ((input.advance choice)^[k] call).2 ∧
        ((input.advance choice)^[k] (passed, call.2)).1 ⊆ ((input.advance choice)^[k] call).1 := by
    intro k
    induction k with
    | zero => exact ⟨rfl, subset⟩
    | succ k ih =>
        simp only [Function.iterate_succ_apply', advance, ih.1, true_and]
        exact List.append_subset.mpr ⟨List.subset_append_of_subset_left _ ih.2,
          List.subset_append_right _ _⟩
  intro k
  have follows := orbits k
  rw [Function.iterate_succ_apply'] at follows ⊢
  rcases tracks k with ⟨same, fewer⟩
  refine ⟨?_, rfl, ?_⟩
  · rw [same]
    exact getRegion_eq_none_of_subset fewer follows.outside
  · simp only [advance, same]
    exact follows.target

/-- Around a cycle of procedures without a return the regions stay the same. -/
theorem exists_orbits_of_cycle (cycle : TransGen (input.MayFollowOn regions) start start) :
    ∃ unused choice, (input.holding unused).Orbits choice (regions, start) := by
  have onward : ∀ address, ∃ target, TransGen (input.MayFollowOn regions) address start →
      TransGen (input.MayFollowOn regions) target start ∧
        input.MayFollowOn regions address target := by
    intro address
    by_cases leads : TransGen (input.MayFollowOn regions) address start
    · rcases TransGen.head'_iff.mp leads with ⟨target, follows, rest⟩
      rcases reflTransGen_iff_eq_or_transGen.mp rest with rfl | rest
      · exact ⟨_, fun _ => ⟨cycle, follows⟩⟩
      · exact ⟨target, fun _ => ⟨rest, follows⟩⟩
    · exact ⟨address, fun absurdly => absurd absurdly leads⟩
  choose choice onward using onward
  have holds : ∀ address, ∃ unused : Address → Nat → Byte,
      TransGen (input.MayFollowOn regions) address start →
        (input.holding unused).FollowsOn regions address (choice address) := by
    intro address
    by_cases leads : TransGen (input.MayFollowOn regions) address start
    · rcases (onward address leads).2 with ⟨unused, follows⟩
      exact ⟨unused, fun _ => follows⟩
    · exact ⟨fun _ _ => 0#8, fun absurdly => absurd absurdly leads⟩
  choose held holds using holds
  have follows : ∀ address, TransGen (input.MayFollowOn regions) address start →
      (input.holding fun address => held address address).Follows (regions, address)
        (regions, choice address) := by
    intro address leads
    exact (holds address leads).follows.holding rfl
  have stays : ∀ k, ∃ address, TransGen (input.MayFollowOn regions) address start ∧
      ((input.holding fun address => held address address).advance choice)^[k] (regions, start) =
        (regions, address) := by
    intro k
    induction k with
    | zero => exact ⟨start, cycle, rfl⟩
    | succ k ih =>
        rcases ih with ⟨address, leads, there⟩
        refine ⟨choice address, (onward address leads).1, ?_⟩
        rw [Function.iterate_succ_apply', there]
        exact Prod.ext (follows address leads).regions.symm rfl
  refine ⟨fun address => held address address, choice, ?_⟩
  intro k
  rcases stays k with ⟨address, leads, there⟩
  rw [Function.iterate_succ_apply', there]
  have same := follows address leads
  exact ⟨same.outside, rfl, same.target⟩

/-- A call before the others is made with a choice of its own, unless it is among them. -/
theorem exists_orbits_of_mayFollow (follows : input.MayFollow call next)
    (orbits : (input.holding unused).Orbits choice next) :
    ∃ unused choice, (input.holding unused).Orbits choice call := by
  rcases follows with ⟨first, follows⟩
  by_cases again : ∃ j, (((input.holding unused).advance choice)^[j] next).2 = call.2
  · rcases again with ⟨j, same⟩
    have later : next.1 ⊆ (((input.holding unused).advance choice)^[j] next).1 :=
      subset_iterate_advance (Nat.zero_le j)
    have restarted := (orbits.drop j).of_subset (List.Subset.trans follows.subset later)
    rw [same] at restarted
    exact ⟨unused, choice, restarted⟩
  · have elsewhere : ∀ j, (((input.holding unused).advance choice)^[j] next).2 ≠ call.2 :=
      not_exists.mp again
    obtain ⟨unused', here, unchanged⟩ : ∃ unused' : Address → Nat → Byte,
        unused' call.2 = first call.2 ∧ ∀ address ≠ call.2, unused' address = unused address :=
      ⟨Function.update unused call.2 (first call.2), Function.update_self .., fun _ different =>
        Function.update_of_ne different ..⟩
    obtain ⟨choice', toNext, unchosen⟩ : ∃ choice' : Address → Address,
        choice' call.2 = next.2 ∧ ∀ address ≠ call.2, choice' address = choice address :=
      ⟨Function.update choice call.2 next.2, Function.update_self .., fun _ different =>
        Function.update_of_ne different ..⟩
    have tracks : ∀ k, ((input.holding unused').advance choice')^[k] next =
        ((input.holding unused).advance choice)^[k] next := by
      intro k
      induction k with
      | zero => simp only [Function.iterate_zero_apply]
      | succ k ih =>
          rw [Function.iterate_succ_apply', Function.iterate_succ_apply', ih]
          simp only [advance, unchosen _ (elsewhere k),
            region_holding (unchanged _ (elsewhere k))]
    have advanced : (input.holding unused').advance choice' call = next := by
      simp only [advance, toNext, region_holding here, ← follows.regions]
    refine ⟨unused', choice', ?_⟩
    intro k
    rw [Function.iterate_succ_apply, advanced]
    cases k with
    | zero => exact follows.holding here.symm
    | succ k =>
        rw [Function.iterate_succ_apply, advanced, tracks, tracks]
        exact (orbits k).holding (unchanged _ (elsewhere k)).symm

theorem exists_orbits {first : List MDBCodeRegion × Address}
    (leads : ReflTransGen input.MayFollow first call)
    (cycle : TransGen (input.MayFollowOn call.1) call.2 call.2) :
    ∃ unused choice, (input.holding unused).Orbits choice first := by
  induction leads using ReflTransGen.head_induction_on with
  | refl => exact exists_orbits_of_cycle cycle
  | head follows _ ih =>
      rcases ih with ⟨unused, choice, orbits⟩
      exact exists_orbits_of_mayFollow follows orbits

/-- The first time that the chosen targets come back closes a cycle. -/
theorem Orbits.loops (orbits : input.Orbits choice (regions, start)) :
    input.Loops regions start := by
  obtain ⟨i, p, back⟩ : ∃ i p, choice^[i + p + 1] start = choice^[i] start := by
    rcases Finite.exists_ne_map_eq_of_infinite fun k : Nat => choice^[k] start with
      ⟨i, j, different, same⟩
    rcases Nat.lt_or_gt_of_ne different with before | after
    · rcases Nat.exists_eq_add_of_lt before with ⟨p, rfl⟩
      exact ⟨i, p, same.symm⟩
    · rcases Nat.exists_eq_add_of_lt after with ⟨p, rfl⟩
      exact ⟨j, p, same⟩
  have periodic : ∀ m, ((input.advance choice)^[i + m + (p + 1)] (regions, start)).2 =
      ((input.advance choice)^[i + m] (regions, start)).2 := by
    intro m
    rw [snd_iterate_advance, snd_iterate_advance, Nat.add_comm i m, Nat.add_assoc,
      Function.iterate_add_apply, Function.iterate_add_apply choice m i, ← Nat.add_assoc, back]
  -- A procedure with a return would have left a region when it is come to again.
  have endless : ∀ m, (input.procedure
      ((input.advance choice)^[i + m] (regions, start)).2).size = none := by
    intro m
    cases found : input.region ((input.advance choice)^[i + m] (regions, start)).2 with
    | none => simpa [region] using found
    | some region =>
        rcases size_region found with ⟨here, size⟩
        have recorded : region ∈ ((input.advance choice)^[i + m + 1] (regions, start)).1 := by
          rw [Function.iterate_succ_apply', advance, found]
          exact List.mem_append_right _ List.mem_cons_self
        have kept := subset_iterate_advance (by omega : i + m + 1 ≤ i + m + (p + 1)) recorded
        have outside := (orbits (i + m + (p + 1))).outside
        rw [periodic, ← here] at outside
        have inside := isSome_getRegion.mpr ⟨region, kept, contains_start size⟩
        rw [outside] at inside
        cases inside
  have follows : ∀ m, input.FollowsOn ((input.advance choice)^[i] (regions, start)).1
      ((input.advance choice)^[i + m] (regions, start)).2
      ((input.advance choice)^[i + m + 1] (regions, start)).2 := by
    intro m
    have outside := getRegion_eq_none_of_subset
      (subset_iterate_advance (Nat.le_add_right i m)) (orbits (i + m)).outside
    exact ⟨outside, endless m, (orbits (i + m)).target⟩
  have leads : ∀ k, ReflTransGen input.Follows (regions, start)
      ((input.advance choice)^[k] (regions, start)) := by
    intro k
    induction k with
    | zero => exact .refl
    | succ k ih => exact ih.tail (orbits k)
  have around : ∀ m, TransGen (input.FollowsOn ((input.advance choice)^[i] (regions, start)).1)
      ((input.advance choice)^[i] (regions, start)).2
      ((input.advance choice)^[i + m + 1] (regions, start)).2 := by
    intro m
    induction m with
    | zero => exact .single (follows 0)
    | succ m ih => exact ih.tail (follows (m + 1))
  have closed : ((input.advance choice)^[i + p + 1] (regions, start)).2 =
      ((input.advance choice)^[i] (regions, start)).2 := periodic 0
  have cycle := around p
  rw [closed] at cycle
  exact ⟨_, leads i, cycle⟩

end Orbits

/-! ## No way out of a cycle -/

/-- Regions of no size, at just the addresses with a property. -/
theorem exists_markers (marked : Address → Prop) :
    ∃ markers : List MDBCodeRegion, ∀ region,
      region ∈ markers ↔ ∃ address, marked address ∧ region = ⟨address, none, 0⟩ := by
  refine ⟨(Set.toFinite {address | marked address}).toFinset.toList.map (⟨·, none, 0⟩), ?_⟩
  intro region
  simp [eq_comm]

/-- Below 4 GiB a region of no size only contains the address that it is at. -/
theorem contains_marker_iff {marker : Address} (low : address.toNat < 2 ^ 32)
    (markerLow : marker.toNat < 2 ^ 32) :
    (⟨marker, none, 0⟩ : MDBCodeRegion).contains address ↔ address = marker := by
  rw [MDBCodeRegion.contains_iff (by decide : 0 < 2 ^ 31)]
  constructor
  · intro inside
    have difference : (address - marker).setWidth 32 = 0#32 :=
      BitVec.eq_of_toNat_eq (Nat.le_zero.mp inside)
    bv_omega
  · rintro rfl
    simp

/--
With everything marked that is called from a cycle, or on the way there, and not part of it,
scanning goes on forever.
-/
theorem exists_not_returns_of_loops (loops : input.Loops regions start)
    (low : ∀ target, input.LeadsTo start target → target.toNat < 2 ^ 32) :
    ∃ more, ¬∃ after, input.Returns (regions ++ more) start after := by
  rcases loops with ⟨call, leads, cycle⟩
  have around : TransGen input.Follows call call :=
    cycle.lift (fun address => (call.1, address)) fun _ _ follows => follows.follows
  rcases exists_path_of_cycle leads around with ⟨path, path_zero, follows⟩
  have reached : ∀ k, input.LeadsTo start (path k).2 := by
    intro k
    induction k with
    | zero =>
        rw [path_zero]
        exact .refl
    | succ k ih => exact ih.tail (follows k).target
  have subset : ∀ {j k}, j ≤ k → (path j).1 ⊆ (path k).1 := by
    intro j k order
    induction order with
    | refl => exact List.Subset.refl _
    | step _ ih => exact List.Subset.trans ih (follows _).subset
  rcases exists_markers fun address => address.toNat < 2 ^ 32 ∧ ∀ k, address ≠ (path k).2 with
    ⟨markers, mem_markers⟩
  have trap : Trap input.enter (fun k => (path k).2) fun k state =>
      markers ⊆ state ∧ state ⊆ markers ++ (path k).1 := by
    constructor
    · rintro k state ⟨marked, inside⟩
      refine ⟨marked, List.Subset.trans inside (List.append_subset.mpr ⟨?_, ?_⟩)⟩
      · exact List.subset_append_left _ _
      · exact List.subset_append_of_subset_right _ (follows k).subset
    · rintro k state ⟨marked, inside⟩
      have outside : getRegion (markers ++ (path k).1) (path k).2 = none := by
        simp only [getRegion, List.find?_eq_none, List.mem_append]
        rintro region (marker | passed)
        · rcases (mem_markers region).mp marker with ⟨address, ⟨lowAddress, elsewhere⟩, rfl⟩
          rw [contains_marker_iff (low _ (reached k)) lowAddress]
          exact (elsewhere k).symm
        · exact List.find?_eq_none.mp (follows k).outside region passed
      exact ⟨_, _, enter_eq_some_iff.mpr ⟨getRegion_eq_none_of_subset inside outside, rfl, rfl⟩,
        (follows k).target⟩
    · rintro j k state entered callees order ⟨marked, inside⟩ enters
      rcases enter_eq_some_iff.mp enters with ⟨_, rfl, _⟩
      refine ⟨List.subset_append_of_subset_left _ marked, List.append_subset.mpr ⟨inside, ?_⟩⟩
      apply List.subset_append_of_subset_right
      apply List.Subset.trans ?_ (subset (Nat.succ_le_succ order))
      rw [(follows j).regions]
      exact List.subset_append_right _ _
    · rintro j k state state' entered callees callee enters called elsewhere ⟨marked, _⟩
      rcases enter_eq_some_iff.mp enters with ⟨_, _, rfl⟩
      have lowCallee := low callee ((reached j).tail called)
      have marker := marked ((mem_markers _).mpr ⟨callee, ⟨lowCallee, elsewhere⟩, rfl⟩)
      apply enter_eq_none_iff.mpr
      apply isSome_getRegion.mpr
      exact ⟨_, marker, (contains_marker_iff lowCallee lowCallee).mpr rfl⟩
  have within : markers ⊆ regions ++ markers ∧ regions ++ markers ⊆ markers ++ (path 0).1 := by
    rw [path_zero]
    refine ⟨List.subset_append_right _ _, List.append_subset.mpr ⟨?_, ?_⟩⟩
    · exact List.subset_append_right _ _
    · exact List.subset_append_left _ _
  have stuck := trap.not_returns within
  simp only [path_zero] at stuck
  exact ⟨markers, stuck⟩

/-! ## Procedures that lie apart -/

theorem discovered_singleton_iff :
    input.Discovered [start] address ↔ input.LeadsTo start address := by
  simp only [Discovered, List.mem_singleton, exists_eq_left, LeadsTo]

theorem LeadsTo.of_reflTransGen (leads : ReflTransGen input.Follows (regions, start) call) :
    input.LeadsTo start call.2 :=
  leads.lift Prod.snd fun _ _ follows => follows.target

/-- A cycle can be gone around once more from its next procedure. -/
theorem exists_followsOn_of_cycle (cycle : TransGen (input.FollowsOn regions) address address) :
    ∃ target, input.FollowsOn regions address target ∧
      TransGen (input.FollowsOn regions) target target := by
  rcases TransGen.head'_iff.mp cycle with ⟨target, follows, rest⟩
  exact ⟨target, follows, TransGen.tail' rest follows⟩

section Apart

variable {after : List MDBCodeRegion} (returned : input.Returns [] start after)
  (apart : input.LiesApart start)

include returned apart

theorem separated_of_liesApart : input.Separated [start] where
  found call made region present contained := by
    have path : Through input.Returns [] [start] after := .cons returned .nil
    have presentLater := (isPrefix_of_madeAmong path made).subset present
    rcases (mem_iff_exists_records path).mp presentLater with ⟨scan, records⟩
    have scanned := discovered_singleton_iff.mp (discovered_of_madeAmong records.made)
    have called := discovered_singleton_iff.mp (discovered_of_madeAmong made)
    rw [apart _ _ region scanned called records.recorded contained]
    exact (size_region records.recorded).1
  recorded call region records earlier present contained := by
    have path : Through input.Returns [] [start] after := .cons returned .nil
    have presentLater := (isPrefix_of_madeAmong path records.made).subset present
    rcases (mem_iff_exists_records path).mp presentLater with ⟨scan, earlierRecords⟩
    have scanned := discovered_singleton_iff.mp (discovered_of_madeAmong earlierRecords.made)
    have called := discovered_singleton_iff.mp (discovered_of_madeAmong records.made)
    rcases size_region earlierRecords.recorded with ⟨here, size⟩
    rw [here] at contained
    have same := apart _ _ region called scanned records.recorded contained
    have found := isSome_getRegion.mpr ⟨earlier, present, contains_start size⟩
    rw [here, same, records.fresh] at found
    cases found

/-- A procedure without a return is entered whenever it is called. -/
theorem fresh_of_endless (made : MadeAmong input.enter [] [start] call)
    (endless : (input.procedure call.2).size = none) : getRegion call.1 call.2 = none := by
  cases found : getRegion call.1 call.2 with
  | none => rfl
  | some own =>
      rcases isSome_getRegion.mp (Option.isSome_of_eq_some found) with ⟨own, present, contained⟩
      have path : Through input.Returns [] [start] after := .cons returned .nil
      have presentLater := (isPrefix_of_madeAmong path made).subset present
      rcases (mem_iff_exists_records path).mp presentLater with ⟨scan, records⟩
      have here := (separated_of_liesApart returned apart).found call made own present contained
      have recorded := records.recorded
      have same : scan.2 = call.2 := (size_region recorded).1.symm.trans here
      simp only [region, same, endless] at recorded
      cases recorded

theorem visit_ne_some_of_cycle (fuel : Nat) {end_ : List MDBCodeRegion}
    (made : MadeAmong input.enter [] [start] call)
    (cycle : TransGen (input.FollowsOn regions) call.2 call.2) :
    visit input.enter fuel call.1 call.2 ≠ some end_ := by
  induction fuel using Nat.strong_induction_on generalizing call end_ with
  | _ fuel ih =>
      intro visited
      rcases exists_followsOn_of_cycle cycle with ⟨target, follows, around⟩
      have fresh := fresh_of_endless returned apart made follows.endless
      have done : Traversal.Returns input.enter call.1 call.2 end_ := ⟨fuel, visited⟩
      rcases done.exists_calls (enter_of_fresh fresh) follows.target with ⟨state, calls⟩
      rcases visit_of_calls visited calls with ⟨less, bound, middle, visitedNext⟩
      exact ih less bound (made.tail calls) around visitedNext

end Apart

/-- Where procedures lie apart, a cycle that calls lead to is gone around forever. -/
theorem not_returns_of_loops (apart : input.LiesApart start) (loops : input.Loops [] start) :
    ¬∃ after, input.Returns [] start after := by
  rintro ⟨after, returned⟩
  rcases loops with ⟨call, leads, cycle⟩
  have path : Through input.Returns [] [start] after := .cons returned .nil
  have discovered := discovered_singleton_iff.mpr (LeadsTo.of_reflTransGen leads)
  rcases exists_fresh_of_discovered path (separated_of_liesApart returned apart) discovered with
    ⟨scan, made, -, same⟩
  have sequence : Through (Traversal.Returns input.enter) [] [start] after := path
  rcases sequence.of_madeAmong made with ⟨_, ⟨fuel, visited⟩, _⟩
  rw [← same] at cycle
  exact visit_ne_some_of_cycle returned apart fuel made cycle visited

/-- `call 0x1000` at 0x1000 and no return. -/
def selfCall : Memory :=
  store (fun _ => 0#8) 0x1000#64 [0xE8#8, 0xFB#8, 0xFF#8, 0xFF#8, 0xFF#8]

theorem procedure_selfCall :
    (onlyMemory selfCall).procedure 0x1000#64 = ⟨[0x1000#64], none⟩ := by
  decide +kernel

theorem loops_selfCall : (onlyMemory selfCall).Loops [] 0x1000#64 := by
  refine ⟨([], 0x1000#64), .refl, .single ⟨rfl, ?_, ?_⟩⟩
  · rw [procedure_selfCall]
  · rw [procedure_selfCall]
    exact List.mem_cons_self

theorem leadsTo_selfCall {target : Address}
    (leads : (onlyMemory selfCall).LeadsTo 0x1000#64 target) : target = 0x1000#64 := by
  induction leads with
  | refl => rfl
  | tail _ called ih =>
      rw [ih, procedure_selfCall] at called
      exact List.mem_singleton.mp called

/-- A procedure that calls nothing. -/
def onlyReturn : Memory := store (fun _ => 0#8) 0x1000#64 [0xC3#8]

theorem procedure_onlyReturn (unused : Address → Nat → Byte) :
    ((onlyMemory onlyReturn).holding unused).procedure 0x1000#64 = ⟨[], some 1⟩ := by
  rw [procedure_holding_of_readable rfl]
  decide +kernel

theorem not_loops_onlyReturn (unused : Address → Nat → Byte) :
    ¬((onlyMemory onlyReturn).holding unused).Loops [] 0x1000#64 := by
  rintro ⟨call, leads, cycle⟩
  rcases ReflTransGen.cases_head leads with rfl | ⟨_, follows, _⟩
  · rcases TransGen.head'_iff.mp cycle with ⟨_, follows, _⟩
    have endless := follows.endless
    rw [procedure_onlyReturn] at endless
    cases endless
  · have target := follows.target
    rw [procedure_onlyReturn] at target
    cases target

theorem liesApart_selfCall : (onlyMemory selfCall).LiesApart 0x1000#64 := by
  intro address other region leads leadsOther recorded contained
  rw [leadsTo_selfCall leads, leadsTo_selfCall leadsOther]

end ScanInput

end RustDbg
