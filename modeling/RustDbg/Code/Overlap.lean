import RustDbg.Code.Record
import RustDbg.Library.Lookup

/-!
# When code regions overlap

Only the start of a new region is looked up among the recorded ones, so it may run into
one of these. The lookup takes a region to include the address behind its last byte and
addresses 4 GiB apart; hence which region it reports depends on the order of the regions
already if a new one merely reaches the start of a recorded one in this sense.
-/

namespace RustDbg

namespace MDBCodeRegion

/-- No address lies in the half-open ranges of both regions. -/
def Disjoint (first second : MDBCodeRegion) : Prop :=
  ∀ address, ¬(first.InRange address ∧ second.InRange address)

/-- Two half-open ranges with an address in common contain the start of one of them. -/
theorem disjoint_iff {earlier region : MDBCodeRegion} (nonempty : 0 < earlier.size)
    (outside : ¬earlier.InRange region.address) :
    earlier.Disjoint region ↔ ¬region.InRange earlier.address := by
  constructor
  · intro disjoint inRange
    exact disjoint earlier.address ⟨inRange_start nonempty, inRange⟩
  · intro noStart address both
    simp only [InRange] at outside noStart both
    omega

theorem setWidth_sub_eq (first second address : Address) : (first - second).setWidth 32 =
    (address - second).setWidth 32 - (address - first).setWidth 32 := by
  simp only [BitVec.sub_eq_add_neg, BitVec.setWidth_add _ _ (show 32 ≤ 64 by omega),
    BitVec.setWidth_neg_of_le (show 32 ≤ 64 by omega)]
  grind

/-- The same for two regions as the lookup takes them, which are arcs of a circle of 4 GiB. -/
theorem apart_iff {earlier region : MDBCodeRegion} (small : earlier.size < 2 ^ 31)
    (smallRegion : region.size < 2 ^ 31) (start : earlier.contains earlier.address)
    (outside : ¬earlier.contains region.address) :
    Lookup.Apart contains earlier region ↔ ¬region.contains earlier.address := by
  constructor
  · intro apart contained
    exact apart earlier.address ⟨start, contained⟩
  · rintro noStart address ⟨inEarlier, inRegion⟩
    simp only [contains_iff small] at outside inEarlier
    simp only [contains_iff smallRegion] at noStart inRegion
    rw [setWidth_sub_eq _ _ address] at outside noStart
    -- The region that the address is farther into contains the start of the other one.
    rcases Nat.le_total ((address - region.address).setWidth 32).toNat
      ((address - earlier.address).setWidth 32).toNat with before | after
    · simp only [BitVec.toNat_sub_of_le (BitVec.le_def.mpr before)] at outside
      omega
    · simp only [BitVec.toNat_sub_of_le (BitVec.le_def.mpr after)] at noStart
      omega

end MDBCodeRegion

namespace ScanInput

open Traversal

variable {input : ScanInput} {starts : List Address} {regions : List MDBCodeRegion}

/-! ## Recording a region -/

theorem disjoint_iff_of_records {call : List MDBCodeRegion × Address}
    {earlier region : MDBCodeRegion} (records : input.Records starts call region)
    (present : earlier ∈ call.1) :
    earlier.Disjoint region ↔ ¬region.InRange earlier.address := by
  have size := (adds_of_madeAmong records.made).sizes earlier present
  rcases size_region records.recorded with ⟨start, _, _⟩
  apply MDBCodeRegion.disjoint_iff size.1
  intro inRange
  have contained := MDBCodeRegion.contains_of_inRange (lt_of_le_bufferSize size.2) inRange
  simp only [start] at contained
  have found := isSome_getRegion.mpr ⟨earlier, present, contained⟩
  simp only [records.fresh] at found
  cases found

theorem apart_iff_of_records {call : List MDBCodeRegion × Address} {earlier region : MDBCodeRegion}
    (records : input.Records starts call region) (present : earlier ∈ call.1) :
    Lookup.Apart MDBCodeRegion.contains earlier region ↔ ¬region.contains earlier.address := by
  have size := (adds_of_madeAmong records.made).sizes earlier present
  rcases size_region records.recorded with ⟨start, _, atMost⟩
  apply MDBCodeRegion.apart_iff (lt_of_le_bufferSize size.2) (lt_of_le_bufferSize atMost)
    (contains_start size)
  intro contained
  simp only [start] at contained
  have found := isSome_getRegion.mpr ⟨earlier, present, contained⟩
  simp only [records.fresh] at found
  cases found

theorem nodup_of_through (path : Through input.Returns [] starts regions) : regions.Nodup := by
  have sequence : Through (Traversal.Returns input.enter) [] starts regions := path
  rcases adds_of_evolves (sequence.evolves fun _ _ _ returned => returned.evolves) with ⟨new, adds⟩
  simp only [adds.appended, List.nil_append]
  exact adds.addresses.of_map _

/-! ## The order of scanning -/

/-- An address whose procedure is to be scanned, as a start address or a call target. -/
def Discovered (input : ScanInput) (starts : List Address) (address : Address) : Prop :=
  ∃ start ∈ starts, Relation.ReflTransGen
    (fun caller target => target ∈ (input.procedure caller).callTargets) start address

/--
Every lookup that finds a region finds the one that starts at the address, and no region
that is recorded contains the start of an earlier one.
-/
structure Separated (input : ScanInput) (starts : List Address) : Prop where
  found : ∀ call, MadeAmong input.enter [] starts call →
    ∀ region ∈ call.1, region.contains call.2 → region.address = call.2
  recorded : ∀ call region, input.Records starts call region →
    ∀ earlier ∈ call.1, ¬region.contains earlier.address

theorem discovered_of_madeAmong {call : List MDBCodeRegion × Address}
    (made : MadeAmong input.enter [] starts call) : input.Discovered starts call.2 := by
  rcases made with ⟨before, start, rest, middle, rfl, early, reaches⟩
  induction reaches with
  | refl => exact ⟨start, by simp, .refl⟩
  | tail _ calls ih =>
      rcases ih with ⟨first, present, chain⟩
      rcases calls with ⟨entered, earlier, later, enters, _⟩
      rcases enter_eq_some_iff.mp enters with ⟨_, _, targets⟩
      refine ⟨first, present, chain.tail ?_⟩
      rw [← targets]
      simp

section Sequence

variable (path : Through input.Returns [] starts regions) (separated : input.Separated starts)

include path separated

/-- An address that is looked up is scanned, then or before. -/
theorem exists_fresh_of_madeAmong {call : List MDBCodeRegion × Address}
    (made : MadeAmong input.enter [] starts call) :
    ∃ scan, MadeAmong input.enter [] starts scan ∧ getRegion scan.1 scan.2 = none ∧
      scan.2 = call.2 := by
  cases found : getRegion call.1 call.2 with
  | none => exact ⟨call, made, found, rfl⟩
  | some region =>
      rcases isSome_getRegion.mp (Option.isSome_of_eq_some found) with ⟨own, present, contained⟩
      have presentLater := (isPrefix_of_madeAmong path made).subset present
      rcases (mem_iff_exists_records path).mp presentLater with ⟨scan, records⟩
      refine ⟨scan, records.made, records.fresh, ?_⟩
      rw [← separated.found call made own present contained]
      exact (size_region records.recorded).1.symm

theorem exists_fresh_of_discovered {address : Address}
    (discovered : input.Discovered starts address) :
    ∃ scan, MadeAmong input.enter [] starts scan ∧ getRegion scan.1 scan.2 = none ∧
      scan.2 = address := by
  have sequence : Through (Traversal.Returns input.enter) [] starts regions := path
  rcases discovered with ⟨start, present, chain⟩
  induction chain with
  | refl =>
      rcases List.append_of_mem present with ⟨before, rest, split⟩
      simp only [split] at sequence
      rcases Through.append_iff.mp sequence with ⟨middle, early, _⟩
      have made : MadeAmong input.enter [] starts (middle, start) :=
        ⟨before, start, rest, middle, split, early, .refl⟩
      exact exists_fresh_of_madeAmong path separated made
  | tail _ target ih =>
      rcases ih with ⟨scan, made, fresh, rfl⟩
      rcases sequence.of_madeAmong made with ⟨after, returned, _⟩
      rcases returned.exists_calls (enter_of_fresh fresh) target with ⟨state, calls⟩
      exact exists_fresh_of_madeAmong path separated (made.tail calls)

/-- Which regions there are at the end is up to the procedures, not to the order of scanning. -/
theorem mem_iff_discovered {region : MDBCodeRegion} :
    region ∈ regions ↔ ∃ address, input.Discovered starts address ∧
      input.region address = some region := by
  rw [mem_iff_exists_records path]
  constructor
  · rintro ⟨call, records⟩
    exact ⟨call.2, discovered_of_madeAmong records.made, records.recorded⟩
  · rintro ⟨address, discovered, recorded⟩
    rcases exists_fresh_of_discovered path separated discovered with ⟨scan, made, fresh, rfl⟩
    exact ⟨scan, made, fresh, recorded⟩

end Sequence

theorem pairwise_apart_iff (path : Through input.Returns [] starts regions) :
    regions.Pairwise (Lookup.Apart MDBCodeRegion.contains) ↔
      ∀ call region, input.Records starts call region →
        ∀ earlier ∈ call.1, ¬region.contains earlier.address := by
  rw [pairwise_iff_forall_records path]
  constructor
  · intro apart call region records earlier present
    apply (apart_iff_of_records records present).mp
    exact apart call region records earlier present
  · intro noStart call region records earlier present
    exact (apart_iff_of_records records present).mpr
      (noStart call region records earlier present)

/--
Scanned regions are disjoint exactly if none is recorded that runs over the start of an
earlier one, and the lookup among them does not depend on their order exactly if none is
recorded that contains the start of an earlier one. If in addition every lookup while
scanning finds a region that starts at the address, and also when the procedures are
scanned in another order, then both orders lead to the same lookups.
-/
theorem regions_disjoint_iff (input : ScanInput) (starts : List Address)
    (regions : List MDBCodeRegion) (path : Through input.Returns [] starts regions) :
    (regions.Pairwise MDBCodeRegion.Disjoint ↔
      ∀ call region, input.Records starts call region →
        ∀ earlier ∈ call.1, ¬region.InRange earlier.address) ∧
    (Lookup.OrderIrrelevant MDBCodeRegion.contains regions ↔
      ∀ call region, input.Records starts call region →
        ∀ earlier ∈ call.1, ¬region.contains earlier.address) ∧
    (input.Separated starts → ∀ otherStarts otherRegions, otherStarts.Perm starts →
      Through input.Returns [] otherStarts otherRegions → input.Separated otherStarts →
        ∀ address, getRegion otherRegions address = getRegion regions address) := by
  refine ⟨?_, ?_, ?_⟩
  · rw [pairwise_iff_forall_records path]
    constructor
    · intro disjoint call region records earlier present
      exact (disjoint_iff_of_records records present).mp
        (disjoint call region records earlier present)
    · intro noStart call region records earlier present
      exact (disjoint_iff_of_records records present).mpr
        (noStart call region records earlier present)
  · rw [Lookup.orderIrrelevant_iff (nodup_of_through path)]
    exact pairwise_apart_iff path
  · intro separated otherStarts otherRegions perm otherPath otherSeparated address
    apply Lookup.find?_eq_of_apart ((pairwise_apart_iff path).mpr separated.recorded)
    intro region
    simp only [mem_iff_discovered otherPath otherSeparated, mem_iff_discovered path separated]
    simp only [Discovered, perm.mem_iff]

/-! ## A procedure that falls through into another one -/

/-- `nop` at 0x1000 and a procedure at 0x1001 that is a `ret`. -/
def fallThrough : Memory :=
  store (fun _ => 0#8) 0x1000#64 [0x90#8, 0xC3#8]

def outerRegion : MDBCodeRegion := ⟨0x1000#64, none, 2⟩

def innerRegion : MDBCodeRegion := ⟨0x1001#64, none, 1⟩

theorem procedure_outer : (onlyMemory fallThrough).procedure 0x1000#64 = ⟨[], some 2⟩ := by
  decide +kernel

theorem procedure_inner : (onlyMemory fallThrough).procedure 0x1001#64 = ⟨[], some 1⟩ := by
  decide +kernel

theorem returns_outer {regions : List MDBCodeRegion} (fresh : getRegion regions 0x1000#64 = none) :
    (onlyMemory fallThrough).Returns regions 0x1000#64 (regions ++ [outerRegion]) := by
  have enters : (onlyMemory fallThrough).enter regions 0x1000#64 =
      some (regions ++ [outerRegion], []) := by
    rw [enter_eq_some_iff, region, procedure_outer]
    exact ⟨fresh, rfl, rfl⟩
  apply (returns_of_entered enters).mpr
  exact .nil

theorem returns_inner {regions : List MDBCodeRegion} (fresh : getRegion regions 0x1001#64 = none) :
    (onlyMemory fallThrough).Returns regions 0x1001#64 (regions ++ [innerRegion]) := by
  have enters : (onlyMemory fallThrough).enter regions 0x1001#64 =
      some (regions ++ [innerRegion], []) := by
    rw [enter_eq_some_iff, region, procedure_inner]
    exact ⟨fresh, rfl, rfl⟩
  apply (returns_of_entered enters).mpr
  exact .nil

theorem through_inner_first : Through (onlyMemory fallThrough).Returns [] [0x1001#64, 0x1000#64]
    [innerRegion, outerRegion] := by
  exact .cons (returns_inner rfl) (.cons (returns_outer (by decide)) .nil)

theorem through_outer_first : Through (onlyMemory fallThrough).Returns [] [0x1000#64, 0x1001#64]
    [outerRegion] := by
  have pruned : (onlyMemory fallThrough).enter [outerRegion] 0x1001#64 = none := by
    rw [enter_eq_none_iff]
    decide
  exact .cons (returns_outer rfl) (.cons ((returns_of_pruned pruned).mpr rfl) .nil)

/-- Scanned inner one first, the two overlap, and which is found depends on the order. -/
theorem not_disjoint_fallThrough :
    (∀ bytes, bytes ≠ [] → 0 < ((onlyMemory fallThrough).ud.disassemble bytes).size) ∧
      Through (onlyMemory fallThrough).Returns [] [0x1001#64, 0x1000#64]
        [innerRegion, outerRegion] ∧
      ¬[innerRegion, outerRegion].Pairwise MDBCodeRegion.Disjoint ∧
      Through (onlyMemory fallThrough).Returns [] [0x1000#64, 0x1001#64] [outerRegion] ∧
      getRegion [innerRegion, outerRegion] 0x1001#64 ≠ getRegion [outerRegion] 0x1001#64 := by
  refine ⟨fun _ more => callsAndReturns_consumes more, through_inner_first, ?_,
    through_outer_first, by decide⟩
  intro disjoint
  rcases List.pairwise_cons.mp disjoint with ⟨apart, _⟩
  apply apart outerRegion (List.mem_singleton_self _) 0x1001#64
  simp [MDBCodeRegion.InRange, innerRegion, outerRegion]

theorem regions_disjoint_iff_fallThrough :
    [innerRegion, outerRegion].Pairwise MDBCodeRegion.Disjoint ↔
      ∀ call region, (onlyMemory fallThrough).Records [0x1001#64, 0x1000#64] call region →
        ∀ earlier ∈ call.1, ¬region.InRange earlier.address :=
  (regions_disjoint_iff _ _ _ through_inner_first).1

end ScanInput

end RustDbg
