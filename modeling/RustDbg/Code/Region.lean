import RustDbg.Image.MachFile

/-!
# Code regions

`MDBCodeRegion` and the lookup of a region by an address in `MDBCode::regions`. The
objects are never changed, so a pointer to one is the object.
-/

namespace RustDbg

structure MDBCodeRegion where
  address : Address
  symbol : Option MDBSymbol
  size : Nat
deriving DecidableEq, Repr

namespace MDBCodeRegion

/-- An address lies in the half-open range of a region. -/
def InRange (region : MDBCodeRegion) (address : Address) : Prop :=
  region.address.toNat ≤ address.toNat ∧ address.toNat < region.address.toNat + region.size

/-- `MDBCodeRegion::getOffset`: the difference of the addresses becomes an `int32_t`. -/
def getOffset (region : MDBCodeRegion) (address : Address) : Int :=
  let offset := ((address - region.address).setWidth 32).toInt
  if offset > intOfSize region.size then -1 else offset

def contains (region : MDBCodeRegion) (address : Address) : Bool := region.getOffset address ≥ 0

/-- A region also contains the address behind its last byte, and addresses 4 GiB apart. -/
theorem contains_iff {region : MDBCodeRegion} (small : region.size < 2 ^ 31) (address : Address) :
    region.contains address ↔
      ((address - region.address).setWidth 32).toNat ≤ region.size := by
  have bound := ((address - region.address).setWidth 32).isLt
  simp only [contains, getOffset, intOfSize_of_lt small, decide_eq_true_eq]
  rw [BitVec.toInt_eq_toNat_cond]
  split <;> split <;> omega

theorem contains_of_inRange {region : MDBCodeRegion} {address : Address}
    (small : region.size < 2 ^ 31) (inRange : region.InRange address) :
    region.contains address := by
  rcases inRange with ⟨low, high⟩
  rw [contains_iff small, BitVec.toNat_setWidth, BitVec.toNat_sub_of_le (BitVec.le_def.mpr low)]
  omega

theorem inRange_start {region : MDBCodeRegion} (nonempty : 0 < region.size) :
    region.InRange region.address := by
  exact ⟨Nat.le_refl _, by omega⟩

end MDBCodeRegion

/-- `MDBCode::getRegion` -/
def getRegion (regions : List MDBCodeRegion) (address : Address) : Option MDBCodeRegion :=
  regions.find? (·.contains address)

theorem isSome_getRegion {regions : List MDBCodeRegion} {address : Address} :
    (getRegion regions address).isSome ↔ ∃ region ∈ regions, region.contains address := by
  simp [getRegion, List.find?_isSome]

end RustDbg
