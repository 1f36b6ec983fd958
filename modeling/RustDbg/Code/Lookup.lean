import RustDbg.Code.Overlap

/-!
# When the lookup of a region is exact

`MDBCodeRegion::getOffset` cuts the distance of an address from the start of a region to
32 bits and lets it be as large as the region. The lookup is therefore exact unless an
address outside of a region seems to be inside of it, or right behind it, modulo 4 GiB.
-/

namespace RustDbg

namespace MDBCodeRegion

instance : Std.Symm Disjoint where
  symm _ _ apart address both := apart address both.symm

/-- How far an address is behind the start of a region, modulo 4 GiB. -/
def distance (region : MDBCodeRegion) (address : Address) : Nat :=
  (((address.toNat : Int) - region.address.toNat) % 2 ^ 32).toNat

/-- An address outside of a region that seems to be inside of it or right behind it. -/
def Strays (region : MDBCodeRegion) (address : Address) : Prop :=
  ¬region.InRange address ∧ region.distance address ≤ region.size

/-- The offset of an address in the range is its distance, and negative elsewhere. -/
structure OffsetExact (region : MDBCodeRegion) (address : Address) : Prop where
  contains : region.contains address ↔ region.InRange address
  inside : region.InRange address →
    region.getOffset address = (address.toNat : Int) - region.address.toNat
  outside : ¬region.InRange address → region.getOffset address < 0

variable {region : MDBCodeRegion} {address : Address}

theorem toNat_distance :
    ((address - region.address).setWidth 32).toNat = region.distance address := by
  have := address.isLt
  have := region.address.isLt
  simp only [distance, BitVec.toNat_setWidth, BitVec.toNat_sub]
  omega

theorem contains_iff_distance (small : region.size < 2 ^ 31) :
    region.contains address ↔ region.distance address ≤ region.size := by
  simp only [contains_iff small, toNat_distance]

theorem getOffset_of_distance (small : region.size < 2 ^ 31)
    (near : region.distance address ≤ region.size) :
    region.getOffset address = region.distance address := by
  have bound := ((address - region.address).setWidth 32).isLt
  simp only [← toNat_distance] at near ⊢
  simp only [getOffset, intOfSize_of_lt small, BitVec.toInt_eq_toNat_cond]
  split <;> split <;> omega

theorem distance_of_inRange (small : region.size < 2 ^ 31) (inRange : region.InRange address) :
    (region.distance address : Int) = (address.toNat : Int) - region.address.toNat := by
  simp only [InRange] at inRange
  simp only [distance]
  omega

theorem offsetExact_iff (small : region.size < 2 ^ 31) :
    region.OffsetExact address ↔ ¬region.Strays address := by
  constructor
  · rintro exact ⟨notInRange, near⟩
    apply notInRange
    apply exact.contains.mp
    apply (contains_iff_distance small).mpr
    exact near
  · intro noStray
    have contains : region.contains address ↔ region.InRange address := by
      refine ⟨?_, contains_of_inRange small⟩
      intro contained
      by_contra notInRange
      apply noStray
      exact ⟨notInRange, (contains_iff_distance small).mp contained⟩
    refine ⟨contains, ?_, ?_⟩
    · intro inRange
      have near := (contains_iff_distance small).mp (contains.mpr inRange)
      simp only [getOffset_of_distance small near, distance_of_inRange small inRange]
    · intro notInRange
      have notContained : ¬region.contains address := notInRange ∘ contains.mp
      simpa [MDBCodeRegion.contains] using notContained

end MDBCodeRegion

/-- The region found for an address is the one whose range it is in, and its offset is exact. -/
structure LookupExact (regions : List MDBCodeRegion) (address : Address) : Prop where
  found : ∀ region, getRegion regions address = some region ↔
    region ∈ regions ∧ region.InRange address
  absent : getRegion regions address = none ↔ ∀ region ∈ regions, ¬region.InRange address
  offset : ∀ region ∈ regions, region.OffsetExact address

/--
Among disjoint regions the lookup of an address is exact exactly if the address does not
stray into one of them.
-/
theorem lookupExact_iff (regions : List MDBCodeRegion)
    (disjoint : regions.Pairwise MDBCodeRegion.Disjoint)
    (small : ∀ region ∈ regions, region.size < 2 ^ 31) (address : Address) :
    LookupExact regions address ↔ ∀ region ∈ regions, ¬region.Strays address := by
  constructor
  · intro exact region present
    apply (MDBCodeRegion.offsetExact_iff (small region present)).mp
    exact exact.offset region present
  · intro noStray
    have offset : ∀ region ∈ regions, region.OffsetExact address := by
      intro region present
      apply (MDBCodeRegion.offsetExact_iff (small region present)).mpr
      exact noStray region present
    have unique : ∀ first ∈ regions, ∀ second ∈ regions, first.contains address →
        second.contains address → first = second := by
      intro first firstMem second secondMem inFirst inSecond
      by_contra different
      have inBoth := And.intro ((offset first firstMem).contains.mp inFirst)
        ((offset second secondMem).contains.mp inSecond)
      exact disjoint.forall firstMem secondMem different address inBoth
    refine ⟨?_, ?_, offset⟩
    · intro region
      simp only [getRegion, Lookup.find?_eq_some_iff_of_unique unique]
      apply and_congr_right
      intro present
      exact (offset region present).contains
    · simp only [getRegion, List.find?_eq_none]
      apply forall₂_congr
      intro region present
      exact not_congr (offset region present).contains

/-- The byte behind a region belongs to the next one, and the first one is found for it. -/
def adjacentRegions : List MDBCodeRegion := [⟨0x1000#64, none, 6⟩, ⟨0x1006#64, none, 1⟩]

theorem adjacentRegions_disjoint : adjacentRegions.Pairwise MDBCodeRegion.Disjoint := by
  simp only [adjacentRegions, List.pairwise_cons, List.mem_singleton, forall_eq]
  refine ⟨?_, by simp, List.Pairwise.nil⟩
  rintro address ⟨inFirst, inSecond⟩
  simp only [MDBCodeRegion.InRange] at inFirst inSecond
  simp only [BitVec.reduceToNat] at inFirst inSecond
  omega

theorem not_lookupExact_adjacentRegions :
    adjacentRegions.Pairwise MDBCodeRegion.Disjoint ∧
      (∀ region ∈ adjacentRegions, region.size < 2 ^ 31) ∧
      ¬LookupExact adjacentRegions 0x1006#64 := by
  refine ⟨adjacentRegions_disjoint, by decide, ?_⟩
  intro exact
  have first : getRegion adjacentRegions 0x1006#64 = some ⟨0x1000#64, none, 6⟩ := by decide
  have inRange := ((exact.found _).mp first).2
  revert inRange
  simp [MDBCodeRegion.InRange]

theorem lookupExact_iff_adjacentRegions : LookupExact adjacentRegions 0x1003#64 ↔
    ∀ region ∈ adjacentRegions, ¬region.Strays 0x1003#64 :=
  lookupExact_iff adjacentRegions adjacentRegions_disjoint (by decide) 0x1003#64

end RustDbg
