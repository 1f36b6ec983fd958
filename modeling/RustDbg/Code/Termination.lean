import RustDbg.Code.Scan

/-!
# What scanning records

The list of regions is the only mark that scanning leaves. It grows by at most one region
for an address, as a recorded region contains its own start, and so there is a bound for it.
-/

namespace RustDbg

namespace ScanInput

open Traversal

variable {input : ScanInput} {regions : List MDBCodeRegion} {address : Address}

/-- `MDBCode::scanProcedure` returns, with the regions recorded by then. -/
def Returns (input : ScanInput) (regions : List MDBCodeRegion) (address : Address)
    (after : List MDBCodeRegion) : Prop :=
  ∃ depth, input.scanProcedure depth regions address = some after

/-! ## Entering a procedure -/

theorem enter_eq_none_iff :
    input.enter regions address = none ↔ (getRegion regions address).isSome := by
  cases found : getRegion regions address <;> simp [enter, found]

theorem enter_eq_some_iff {entered : List MDBCodeRegion} {targets : List Address} :
    input.enter regions address = some (entered, targets) ↔
      getRegion regions address = none ∧
      entered = regions ++ (input.region address).toList ∧
      targets = (input.procedure address).callTargets := by
  cases found : getRegion regions address with
  | none => simp [enter, found, eq_comm]
  | some region => simp [enter, found]

theorem enterWith_eq_some_iff {buffers : Buffers} {state entered : List MDBCodeRegion × Nat}
    {targets : List Address} :
    input.enterWith buffers state address = some (entered, targets) ↔
      getRegion state.1 address = none ∧
      entered = (state.1 ++ ((input.holding (buffers state.2)).region address).toList,
        state.2 + 1) ∧
      targets = ((input.holding (buffers state.2)).procedure address).callTargets := by
  cases found : getRegion state.1 address with
  | none => simp [enterWith, enter, found, eq_comm, Prod.ext_iff, and_assoc]
  | some region => simp [enterWith, enter, found]

/-- The regions that a scan adds, at most one for an address. -/
structure Adds (regions later new : List MDBCodeRegion) : Prop where
  appended : later = regions ++ new
  addresses : (new.map (·.address)).Nodup
  sizes : ∀ region ∈ new, 0 < region.size ∧ region.size ≤ bufferSize

theorem contains_start {region : MDBCodeRegion}
    (size : 0 < region.size ∧ region.size ≤ bufferSize) :
    region.contains region.address := by
  apply MDBCodeRegion.contains_of_inRange
  · exact lt_of_le_bufferSize size.2
  · exact MDBCodeRegion.inRange_start size.1

/-- A procedure that is not in a region yet can be recorded. -/
theorem Adds.record {middle new : List MDBCodeRegion} (adds : Adds regions middle new)
    (fresh : getRegion middle address = none) :
    ∃ new, Adds regions (middle ++ (input.region address).toList) new := by
  cases found : input.region address with
  | none =>
      refine ⟨new, ?_, adds.addresses, adds.sizes⟩
      simp only [Option.toList_none, List.append_nil]
      exact adds.appended
  | some region =>
      rcases size_region found with ⟨rfl, size⟩
      refine ⟨new ++ [region], ?_, ?_, ?_⟩
      · simp only [adds.appended, Option.toList_some, List.append_assoc]
      · simp only [List.map_append, List.map_singleton, List.nodup_append]
        refine ⟨adds.addresses, List.nodup_singleton _, ?_⟩
        intro earlierAddress earlierMem latestAddress latestMem same
        rcases List.mem_map.mp earlierMem with ⟨earlier, present, rfl⟩
        have found : (getRegion middle region.address).isSome := by
          apply isSome_getRegion.mpr
          refine ⟨earlier, ?_, ?_⟩
          · rw [adds.appended]
            exact List.mem_append_right _ present
          · simp only [← List.mem_singleton.mp latestMem, ← same]
            apply contains_start
            exact adds.sizes earlier present
        simp only [fresh] at found
        cases found
      · intro other otherMem
        rcases List.mem_append.mp otherMem with earlier | latest
        · exact adds.sizes other earlier
        · rw [List.mem_singleton.mp latest]
          exact size

theorem Adds.refl (regions : List MDBCodeRegion) : Adds regions regions [] :=
  ⟨(List.append_nil _).symm, List.nodup_nil, by simp⟩

theorem adds_of_evolves {later : List MDBCodeRegion} (evolves : Evolves input.enter regions later) :
    ∃ new, Adds regions later new := by
  induction evolves with
  | refl => exact ⟨[], .refl regions⟩
  | tail _ step ih =>
      rcases ih with ⟨new, adds⟩
      rcases step with ⟨address, targets, enters⟩
      rcases enter_eq_some_iff.mp enters with ⟨fresh, rfl, _⟩
      exact adds.record fresh

theorem adds_of_evolvesWith {buffers : Buffers} {state later : List MDBCodeRegion × Nat}
    (evolves : Evolves (input.enterWith buffers) state later) :
    ∃ new, Adds state.1 later.1 new := by
  induction evolves with
  | refl => exact ⟨[], .refl state.1⟩
  | tail _ step ih =>
      rcases ih with ⟨new, adds⟩
      rcases step with ⟨address, targets, enters⟩
      rcases enterWith_eq_some_iff.mp enters with ⟨fresh, rfl, _⟩
      exact adds.record fresh

/-! ## A bound -/

theorem length_le_of_nodup {addresses : List Address} (nodup : addresses.Nodup) :
    addresses.length ≤ 2 ^ 64 := by
  have injective : Function.Injective (BitVec.toFin : Address → Fin (2 ^ 64)) := by
    intro first second same
    exact BitVec.eq_of_toFin_eq same
  have bound := (nodup.map injective).length_le_card
  rwa [List.length_map, Fintype.card_fin] at bound

theorem Adds.length_le {later new : List MDBCodeRegion} (adds : Adds regions later new) :
    later.length ≤ regions.length + 2 ^ 64 := by
  have bound := length_le_of_nodup adds.addresses
  simp only [List.length_map] at bound
  simp only [adds.appended, List.length_append]
  omega

instance : Finite Address := Finite.of_injective BitVec.toFin fun _ _ => BitVec.eq_of_toFin_eq

theorem grows_of_enter (earlier : List MDBCodeRegion) (address : Address)
    (entered : List MDBCodeRegion) (targets : List Address)
    (enters : input.enter earlier address = some (entered, targets)) :
    entered = earlier ∨ earlier.length < entered.length := by
  rcases enter_eq_some_iff.mp enters with ⟨_, rfl, _⟩
  cases input.region address with
  | none => simp
  | some region => simp

theorem length_le_of_evolves {later : List MDBCodeRegion}
    (evolves : Evolves input.enter regions later) : later.length ≤ regions.length + 2 ^ 64 := by
  rcases adds_of_evolves evolves with ⟨new, adds⟩
  exact adds.length_le

end ScanInput

end RustDbg
