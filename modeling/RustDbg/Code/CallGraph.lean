import RustDbg.Code.Termination
import RustDbg.Library.Reachability

/-!
# The procedures that scanning finds

Procedures that return and lie apart, so that no region is taken to contain the start of
another one, are each scanned once: scanning some of them records a region for each procedure
that they lead to through calls, recursive ones included, and in which order they are scanned
makes no difference.
-/

namespace RustDbg

namespace ScanInput

open Traversal

/-- The procedures that can be reached through calls. -/
def Procedure.Reachable (input : ScanInput) : List Address → Address → Prop :=
  Traversal.Reachable fun address => (input.procedure address).callTargets

/-- The procedures that some lead to return, and none begins in the region of another one. -/
structure Apart (input : ScanInput) (starts : List Address) : Prop where
  returns : ∀ address, Procedure.Reachable input starts address →
    (input.region address).isSome
  apart : ∀ address other region, Procedure.Reachable input starts address →
    Procedure.Reachable input starts other → input.region address = some region →
      region.contains other → other = address

variable {input : ScanInput} {starts : List Address} {regions : List MDBCodeRegion}
  {address : Address}

/-- All regions are those of procedures that are reached. -/
def OfReachable (input : ScanInput) (starts : List Address) (regions : List MDBCodeRegion) : Prop :=
  ∀ region ∈ regions, ∃ address, Procedure.Reachable input starts address ∧
    input.region address = some region

/-- There is a region for a procedure. -/
def Recorded (regions : List MDBCodeRegion) (address : Address) : Prop :=
  ∃ region ∈ regions, region.address = address

theorem isSome_getRegion_iff (apart : input.Apart starts)
    (ofReachable : input.OfReachable starts regions)
    (reachable : Procedure.Reachable input starts address) :
    (getRegion regions address).isSome ↔ Recorded regions address := by
  rw [isSome_getRegion]
  constructor
  · rintro ⟨region, mem, contains⟩
    rcases ofReachable region mem with ⟨owner, owned, recorded⟩
    refine ⟨region, mem, ?_⟩
    rw [apart.apart owner address region owned reachable recorded contains]
    exact (size_region recorded).1
  · rintro ⟨region, mem, rfl⟩
    rcases ofReachable region mem with ⟨owner, -, recorded⟩
    exact ⟨region, mem, contains_start (size_region recorded).2⟩

theorem marking (apart : input.Apart starts) :
    Marking input.enter (fun address => (input.procedure address).callTargets)
      (Procedure.Reachable input starts) (input.OfReachable starts) Recorded where
  within _ _ reachable mem := reachable.callee mem
  pruned regions address ofReachable reachable := by
    rw [enter_eq_none_iff]
    exact isSome_getRegion_iff apart ofReachable reachable
  entered regions address entered calls ofReachable reachable enters := by
    rcases enter_eq_some_iff.mp enters with ⟨-, rfl, rfl⟩
    rcases Option.isSome_iff_exists.mp (apart.returns address reachable) with ⟨region, recorded⟩
    have address_eq := (size_region recorded).1
    rw [recorded, Option.toList_some]
    refine ⟨?_, rfl, ?_⟩
    · intro earlier mem
      rcases List.mem_append.mp mem with before | new
      · exact ofReachable earlier before
      · rw [List.mem_singleton.mp new]
        exact ⟨address, reachable, recorded⟩
    · intro other
      simp only [Recorded, List.mem_append, List.mem_singleton, or_and_right, exists_or,
        exists_eq_left, address_eq]
      rw [or_comm, eq_comm]

/-- What scanning one procedure after the other leaves. -/
structure EachOnce (input : ScanInput) (starts : List Address) (regions : List MDBCodeRegion) :
    Prop where
  once : (regions.map (·.address)).Nodup
  exact : ∀ region, region ∈ regions ↔
    ∃ address, Procedure.Reachable input starts address ∧ input.region address = some region

theorem exists_eachOnce (apart : input.Apart starts) :
    ∃ regions, Through input.Returns [] starts regions ∧ input.EachOnce starts regions := by
  have nothing : input.OfReachable starts [] := by simp [OfReachable]
  have within : ∀ start ∈ starts, Procedure.Reachable input starts start :=
    fun _ mem => .of_mem mem
  rcases (marking apart).exists_through nothing within with ⟨regions, path⟩
  have explores := (marking apart).explores path nothing within
  have evolves := path.evolves fun _ _ _ returned => returned.evolves
  rcases adds_of_evolves evolves with ⟨new, adds⟩
  have recorded : ∀ address, Recorded regions address ↔ Procedure.Reachable input starts address :=
    fun address => explores.marked_iff (by simp [Recorded])
  refine ⟨regions, path, ?_, ?_⟩
  · have regions_eq : regions = new := adds.appended
    rw [regions_eq]
    exact adds.addresses
  · intro region
    constructor
    · exact explores.valid region
    · rintro ⟨address, reachable, region_eq⟩
      rcases (recorded address).mpr reachable with ⟨other, mem, address_eq⟩
      rcases explores.valid other mem with ⟨owner, -, other_eq⟩
      have owner_eq : owner = address := (size_region other_eq).1.symm.trans address_eq
      rw [owner_eq, region_eq] at other_eq
      rwa [Option.some.inj other_eq]

theorem Apart.congr {others : List Address} (apart : input.Apart starts)
    (same : ∀ address, address ∈ others ↔ address ∈ starts) : input.Apart others where
  returns address reachable :=
    apart.returns address (reachable.mono fun _ mem => (same _).mp mem)
  apart address other region reachable otherReachable :=
    apart.apart address other region (reachable.mono fun _ mem => (same _).mp mem)
      (otherReachable.mono fun _ mem => (same _).mp mem)

theorem EachOnce.perm {others : List Address} {after : List MDBCodeRegion}
    (scanned : input.EachOnce starts regions) (other : input.EachOnce others after)
    (same : ∀ address, address ∈ others ↔ address ∈ starts) : after.Perm regions := by
  apply (List.perm_ext_iff_of_nodup (.of_map _ other.once) (.of_map _ scanned.once)).mpr
  intro region
  rw [scanned.exact, other.exact]
  constructor
  · rintro ⟨address, reachable, region_eq⟩
    exact ⟨address, reachable.mono fun _ mem => (same _).mp mem, region_eq⟩
  · rintro ⟨address, reachable, region_eq⟩
    exact ⟨address, reachable.mono fun _ mem => (same _).mpr mem, region_eq⟩

/-- `call 0x1010; ret` at 0x1000 and `call 0x1000; ret` at 0x1010. -/
def mutualCalls : Memory :=
  store (store (fun _ => 0#8) 0x1000#64 [0xE8#8, 0x0B#8, 0x00#8, 0x00#8, 0x00#8, 0xC3#8])
    0x1010#64 [0xE8#8, 0xEB#8, 0xFF#8, 0xFF#8, 0xFF#8, 0xC3#8]

theorem procedure_mutualCalls :
    (onlyMemory mutualCalls).procedure 0x1000#64 = ⟨[0x1010#64], some 6⟩ ∧
      (onlyMemory mutualCalls).procedure 0x1010#64 = ⟨[0x1000#64], some 6⟩ := by
  decide +kernel

theorem reachable_mutualCalls
    (reachable : Procedure.Reachable (onlyMemory mutualCalls) [0x1000#64] address) :
    address = 0x1000#64 ∨ address = 0x1010#64 := by
  have closed : ∀ caller, caller = 0x1000#64 ∨ caller = 0x1010#64 →
      ∀ callee ∈ ((onlyMemory mutualCalls).procedure caller).callTargets,
        callee = 0x1000#64 ∨ callee = 0x1010#64 := by
    rintro caller (rfl | rfl) callee mem
    · rw [procedure_mutualCalls.1] at mem
      exact Or.inr (List.mem_singleton.mp mem)
    · rw [procedure_mutualCalls.2] at mem
      exact Or.inl (List.mem_singleton.mp mem)
  apply Reachable.of_closed closed ?_ reachable
  intro start mem
  exact Or.inl (List.mem_singleton.mp mem)

theorem region_mutualCalls (which : address = 0x1000#64 ∨ address = 0x1010#64) :
    (onlyMemory mutualCalls).region address = some ⟨address, none, 6⟩ := by
  rcases which with rfl | rfl
  · rw [region, procedure_mutualCalls.1]
    rfl
  · rw [region, procedure_mutualCalls.2]
    rfl

theorem apart_mutualCalls : (onlyMemory mutualCalls).Apart [0x1000#64] where
  returns address reachable := by
    rw [region_mutualCalls (reachable_mutualCalls reachable)]
    rfl
  apart address other region reachable otherReachable region_eq contains := by
    rw [region_mutualCalls (reachable_mutualCalls reachable)] at region_eq
    rcases Option.some.inj region_eq with rfl
    rcases reachable_mutualCalls reachable with rfl | rfl <;>
      rcases reachable_mutualCalls otherReachable with rfl | rfl
    · rfl
    · apply absurd contains
      decide
    · apply absurd contains
      decide
    · rfl

end ScanInput

end RustDbg
