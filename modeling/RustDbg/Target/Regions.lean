import RustDbg.Target.Memory

/-!
# The memory map of a task

The regions of a task as `mach_vm_region` reports them, and what `mach_vm_read` copies out
of them. A read fails as a whole if it touches a byte that is not mapped or not readable.
-/

namespace RustDbg

/-- `vm_prot_t` -/
def VM_PROT_READ : BitVec 32 := 1#32

/-- `vm_inherit_t` -/
def VM_INHERIT_SHARE : BitVec 32 := 0#32

/-- The fields of `vm_region_basic_info_64` that decide about anything. -/
structure VmRegionInfo where
  protection : BitVec 32
  inheritance : BitVec 32
deriving DecidableEq, Repr

def VmRegionInfo.readable (info : VmRegionInfo) : Bool := info.protection &&& VM_PROT_READ ≠ 0

structure VmRegion where
  start : Address
  contents : List Byte
  info : VmRegionInfo
deriving DecidableEq, Repr

namespace VmRegion

def size (region : VmRegion) : Nat := region.contents.length

/-- The first address behind the region, or 2^64. -/
def stop (region : VmRegion) : Nat := region.start.toNat + region.size

end VmRegion

/-- Disjoint regions in the order of their addresses. -/
structure RegionMap where
  regions : List VmRegion
  nonempty : ∀ region ∈ regions, 0 < region.size
  sorted : regions.Pairwise fun lower higher => lower.stop ≤ higher.start.toNat
  inside : ∀ region ∈ regions, region.stop ≤ 2 ^ 64 ∧ region.size < 2 ^ 64

namespace RegionMap

/-- The region that contains an address or follows it, which `mach_vm_region` finds. -/
def regionFrom (map : RegionMap) (address : Address) : Option VmRegion :=
  map.regions.find? fun region => address.toNat < region.stop

/-- The byte at an address, if it is mapped and can be read. -/
def byteAt (map : RegionMap) (address : Address) : Option Byte :=
  (map.regionFrom address).bind fun region =>
    if region.info.readable = true ∧ region.start.toNat ≤ address.toNat then
      region.contents[address.toNat - region.start.toNat]?
    else none

/-- `mach_vm_read`; it copies all bytes or none. -/
def machVmRead (map : RegionMap) (src : Address) (size : Nat) : Option (List Byte) :=
  if ∀ i < size, (map.byteAt (src + BitVec.ofNat 64 i)).isSome then
    some ((List.range size).map fun i => (map.byteAt (src + BitVec.ofNat 64 i)).getD 0#8)
  else none

variable {map : RegionMap} {address : Address} {region : VmRegion} {done rest : List VmRegion}

/-! ## Going through the regions -/

/-- The regions are cut in two by an address. -/
structure CutAt (map : RegionMap) (address : Address) (done rest : List VmRegion) : Prop where
  split : map.regions = done ++ rest
  done : ∀ region ∈ done, region.stop ≤ address.toNat
  rest : ∀ region ∈ rest, address.toNat < region.stop

theorem cutAt_zero (map : RegionMap) : map.CutAt 0#64 [] map.regions := by
  refine ⟨rfl, by simp, ?_⟩
  intro region present
  have nonempty := map.nonempty region present
  simp only [BitVec.toNat_zero, VmRegion.stop]
  omega

theorem CutAt.regionFrom_eq (cut : map.CutAt address done rest) :
    map.regionFrom address = rest.head? := by
  have none : done.find? (fun region => address.toNat < region.stop) = none := by
    rw [List.find?_eq_none]
    intro region present
    have before := cut.done region present
    simp only [decide_eq_true_eq]
    omega
  simp only [regionFrom, cut.split, List.find?_append, none, Option.none_or]
  cases regions : rest with
  | nil => rfl
  | cons first others =>
      apply List.find?_cons_of_pos
      simpa using cut.rest first (by simp [regions])

/-- The address behind a region cuts the regions behind it, unless it is 2^64. -/
theorem CutAt.next (cut : map.CutAt address done (region :: rest)) (fits : region.stop < 2 ^ 64) :
    map.CutAt (region.start + BitVec.ofNat 64 region.size) (done ++ [region]) rest := by
  have stop_eq : (region.start + BitVec.ofNat 64 region.size).toNat = region.stop := by
    simp only [VmRegion.stop] at fits ⊢
    simp only [BitVec.toNat_add, BitVec.toNat_ofNat]
    omega
  have whole : map.regions = (done ++ [region]) ++ rest := by
    simp only [cut.split, List.append_assoc, List.singleton_append]
  have sorted := map.sorted
  simp only [whole] at sorted
  have later := (List.pairwise_append.mp sorted).2.2 region (by simp)
  refine ⟨whole, ?_, ?_⟩
  · intro earlier present
    rw [stop_eq]
    rcases List.mem_append.mp present with old | latest
    · have before := cut.done earlier old
      have behind := cut.rest region List.mem_cons_self
      omega
    · apply Nat.le_of_eq
      exact congrArg VmRegion.stop (List.mem_singleton.mp latest)
  · intro other present
    have behind := later other present
    have mem : other ∈ map.regions := by
      rw [whole]
      exact List.mem_append_right _ present
    have nonempty := map.nonempty other mem
    have order : other.start.toNat < other.stop := Nat.lt_add_of_pos_right nonempty
    omega

/-- A region behind which there is another one does not end at 2^64. -/
theorem CutAt.stop_lt {other : VmRegion} (cut : map.CutAt address done (region :: other :: rest)) :
    region.stop < 2 ^ 64 := by
  have sorted := map.sorted
  simp only [cut.split] at sorted
  have behind := (List.pairwise_cons.mp (List.pairwise_append.mp sorted).2.1).1 other (by simp)
  have bound := other.start.isLt
  omega

/-- The first region of a kind is the lowest one. -/
theorem eq_or_stop_le_of_find? {kind : VmRegion → Bool} {first : VmRegion}
    (found : map.regions.find? kind = some first) (present : region ∈ map.regions)
    (holds : kind region = true) : region = first ∨ first.stop ≤ region.start.toNat := by
  rcases List.find?_eq_some_iff_append.mp found with ⟨_, before, behind, split, others⟩
  have sorted := map.sorted
  simp only [split] at sorted present
  rcases List.mem_append.mp present with earlier | later
  · have otherKind := others region earlier
    simp only [holds] at otherKind
    cases otherKind
  · rcases List.mem_cons.mp later with same | later
    · exact Or.inl same
    · right
      exact (List.pairwise_cons.mp (List.pairwise_append.mp sorted).2.1).1 region later

/-! ## Reading -/

theorem byteAt_region (present : region ∈ map.regions) (readable : region.info.readable = true)
    {i : Nat} (inside : i < region.contents.length) :
    map.byteAt (region.start + BitVec.ofNat 64 i) = some region.contents[i] := by
  have fits := (map.inside region present).1
  have address_eq : (region.start + BitVec.ofNat 64 i).toNat = region.start.toNat + i := by
    simp only [VmRegion.stop, VmRegion.size] at fits
    simp only [BitVec.toNat_add, BitVec.toNat_ofNat]
    omega
  have found : map.regionFrom (region.start + BitVec.ofNat 64 i) = some region := by
    rcases List.append_of_mem present with ⟨before, behind, split⟩
    have sorted := map.sorted
    simp only [split] at sorted
    have none : before.find? (fun other =>
        (region.start + BitVec.ofNat 64 i).toNat < other.stop) = none := by
      rw [List.find?_eq_none]
      intro other earlier
      have order := (List.pairwise_append.mp sorted).2.2 other earlier region (by simp)
      simp only [address_eq, decide_eq_true_eq]
      omega
    simp only [regionFrom, split, List.find?_append, none, Option.none_or]
    apply List.find?_cons_of_pos
    simp only [address_eq, VmRegion.stop, VmRegion.size, decide_eq_true_eq]
    omega
  simp only [byteAt, found, Option.bind_some, readable, address_eq, true_and]
  rw [if_pos (Nat.le_add_right _ _), Nat.add_sub_cancel_left, List.getElem?_eq_getElem inside]

/-- A readable region can be read as a whole. -/
theorem machVmRead_region (present : region ∈ map.regions)
    (readable : region.info.readable = true) :
    map.machVmRead region.start region.size = some region.contents := by
  have bytes : ∀ i < region.size, (map.byteAt (region.start + BitVec.ofNat 64 i)).isSome := by
    intro i inside
    rw [byteAt_region present readable inside]
    rfl
  simp only [machVmRead, if_pos bytes]
  congr 1
  apply List.ext_getElem
  · simp [VmRegion.size]
  · intro i _ inside
    simp only [List.getElem_map, List.getElem_range, byteAt_region present readable inside,
      Option.getD_some]

/-- Behind the last region nothing can be read. -/
theorem machVmRead_of_regionFrom_none (past : map.regionFrom address = none) {size : Nat}
    (positive : 0 < size) : map.machVmRead address size = none := by
  have unmapped : map.byteAt address = none := by
    simp only [byteAt, past, Option.bind_none]
  apply if_neg
  intro all
  have first := all 0 positive
  simp [unmapped] at first

end RegionMap

end RustDbg
