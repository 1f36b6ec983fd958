import RustDbg.Image.MachFile
import RustDbg.Library.Loop
import RustDbg.Target.Regions

/-!
# Walking the memory map

The loops of `MDBProcess::findAddress` and `logMemoryState`, which go through the regions
of the task with `mach_vm_region`. They leave only on one of its error codes. A task that
dies makes every call fail with another one, and then both go on for ever.
-/

namespace RustDbg

open Buffer Loop

/-- `kern_return_t` -/
abbrev KernReturn := Int

def KERN_SUCCESS : KernReturn := 0

def KERN_INVALID_ADDRESS : KernReturn := 1

/-- The magic number of an image in the other byte order. -/
def MH_CIGAM : BitVec 32 := 0xcefaedfe#32

/-- A task whose memory map is walked. -/
structure WalkedTask where
  map : RegionMap
  /-- From which call of `mach_vm_region` on it fails for good, and with what. -/
  failure : Option (Nat × KernReturn)
  failed : ∀ call code, failure = some (call, code) → code ≠ KERN_SUCCESS

/-- The variables of the loops. -/
structure RegionWalk where
  address : Address
  size : BitVec 64
  info : VmRegionInfo
  /-- How often `mach_vm_region` has been called. -/
  calls : Nat
deriving DecidableEq, Repr

namespace RegionWalk

/-- Before the first call; the source initializes the address only. -/
def start (size : BitVec 64) (info : VmRegionInfo) : RegionWalk := ⟨0#64, size, info, 0⟩

/-- `address += size` -/
def past (walk : RegionWalk) : RegionWalk := { walk with address := walk.address + walk.size }

/-- What a successful call of `mach_vm_region` sets. -/
def found (region : VmRegion) (calls : Nat) : RegionWalk :=
  ⟨region.start, BitVec.ofNat 64 region.size, region.info, calls⟩

end RegionWalk

namespace WalkedTask

/-- What the calls at a time fail with, if they do. -/
def failsAt (task : WalkedTask) (call : Nat) : Option KernReturn :=
  task.failure.bind fun (first, code) => if first ≤ call then some code else none

/-- `mach_vm_region(task, &address, &size, …)`, which sets nothing when it fails. -/
def machVmRegion (task : WalkedTask) (walk : RegionWalk) : KernReturn × RegionWalk :=
  match task.failsAt walk.calls with
  | some code => (code, { walk with calls := walk.calls + 1 })
  | none =>
      match task.map.regionFrom walk.address with
      | none => (KERN_INVALID_ADDRESS, { walk with calls := walk.calls + 1 })
      | some region => (KERN_SUCCESS, .found region (walk.calls + 1))

/-- `MDBProcess::read(&image, address, size)` after the call of `mach_vm_region` at a time. -/
def read (task : WalkedTask) (call : Nat) (walk : RegionWalk) : Option (List Byte) :=
  if (task.failsAt call).isSome then none
  else task.map.machVmRead walk.address walk.size.toNat

/-! ## The two loops -/

/-- `imageName && strcmp(findImageName(image), imageName) != 0`, if it is defined. -/
def nameDiffers (image : List Byte) (imageName : Option (List Byte)) : Option Bool :=
  match imageName with
  | none => some false
  | some name => do
      let position ← ← MDBMachFile.findImageName image
      let same ← equalsAt image position name
      return !same

/-- An iteration of `MDBProcess::findAddress`; there is no answer if a comparison is undefined. -/
def findAddressBody (task : WalkedTask) (fileType : BitVec 32) (imageName : Option (List Byte))
    (walk : RegionWalk) : Iteration RegionWalk (Option Address) :=
  let (kr, here) := task.machVmRegion walk
  let next := if kr ≠ KERN_INVALID_ADDRESS then .goesOn here.past else .leaves (some 0#64)
  if here.info.readable = false ∨ here.size.toNat < sizeofMachHeader then next
  else
    match task.read walk.calls here with
    | none => next
    | some image =>
        if (word image 0 = MH_MAGIC ∨ word image 0 = MH_CIGAM) ∧ word image 12 = fileType then
          match nameDiffers image imageName with
          | none => .leaves none
          -- The loop is left before `foundAddress` is set.
          | some true => .leaves (some 0#64)
          | some false => .leaves (some here.address)
        else next

/-- An iteration of `MDBProcess::logMemoryState`, whose branches differ in what they log. -/
def logMemoryStateBody (task : WalkedTask) (walk : RegionWalk) : Iteration RegionWalk Unit :=
  let (kr, here) := task.machVmRegion walk
  if kr = KERN_INVALID_ADDRESS then .leaves ()
  else if here.info.readable = false ∨ here.size.toNat < sizeofMachHeader ∨
      here.info.inheritance = VM_INHERIT_SHARE then .goesOn here.past
  else
    match task.read walk.calls here with
    | none => .goesOn here.past
    | some _ => .goesOn here.past

variable {task : WalkedTask} {walk next : RegionWalk} {region : VmRegion}
  {done rest : List VmRegion} {call : Nat} {code : KernReturn}

/-! ## When the calls fail -/

theorem failsAt_eq_some_iff : task.failsAt call = some code ↔
    ∃ first ≤ call, task.failure = some (first, code) := by
  simp only [failsAt, Option.bind_eq_some_iff, Option.ite_none_right_eq_some, Option.some.injEq]
  constructor
  · rintro ⟨⟨first, _⟩, failure, early, rfl⟩
    exact ⟨first, early, failure⟩
  · rintro ⟨first, early, failure⟩
    exact ⟨_, failure, early, rfl⟩

/-- Once a call has failed, all do. -/
theorem failsAt_mono {later : Nat} (order : call ≤ later) (fails : task.failsAt call = some code) :
    task.failsAt later = some code := by
  rcases failsAt_eq_some_iff.mp fails with ⟨first, early, failure⟩
  apply failsAt_eq_some_iff.mpr
  exact ⟨first, Nat.le_trans early order, failure⟩

theorem failsAt_eq_none_mono {later : Nat} (order : call ≤ later)
    (alive : task.failsAt later = none) : task.failsAt call = none := by
  cases fails : task.failsAt call with
  | none => rfl
  | some code =>
      simp only [failsAt_mono order fails] at alive
      cases alive

theorem machVmRegion_of_failsAt (fails : task.failsAt walk.calls = some code) :
    task.machVmRegion walk = (code, { walk with calls := walk.calls + 1 }) := by
  simp only [machVmRegion, fails]

theorem machVmRegion_of_none (alive : task.failsAt walk.calls = none)
    (past : task.map.regionFrom walk.address = none) :
    task.machVmRegion walk = (KERN_INVALID_ADDRESS, { walk with calls := walk.calls + 1 }) := by
  simp only [machVmRegion, alive, past]

theorem machVmRegion_of_some (alive : task.failsAt walk.calls = none)
    (present : task.map.regionFrom walk.address = some region) :
    task.machVmRegion walk = (KERN_SUCCESS, .found region (walk.calls + 1)) := by
  simp only [machVmRegion, alive, present]

/-! ## What the loops have in common -/

/-- A loop over the regions that is left at the regions of a kind, and at the end of the map. -/
structure Walks {Result : Type} (task : WalkedTask) (stopsAt : VmRegion → Bool)
    (body : RegionWalk → Iteration RegionWalk Result) : Prop where
  failed : ∀ walk code, task.failsAt walk.calls = some code →
    if code = KERN_INVALID_ADDRESS then ∃ result, body walk = .leaves result
    else ∃ next, body walk = .goesOn next ∧ next.calls = walk.calls + 1
  ended : ∀ walk, task.failsAt walk.calls = none → task.map.regionFrom walk.address = none →
    ∃ result, body walk = .leaves result
  found : ∀ walk region, task.failsAt walk.calls = none →
    task.map.regionFrom walk.address = some region →
      if stopsAt region then ∃ result, body walk = .leaves result
      else body walk = .goesOn (RegionWalk.found region (walk.calls + 1)).past

/-- The walk comes to an end of the map, to a region it stops at, or to `KERN_INVALID_ADDRESS`. -/
def Ends (task : WalkedTask) (stopsAt : VmRegion → Bool) : Prop :=
  (∃ call, task.failure = some (call, KERN_INVALID_ADDRESS)) ∨
  (∃ (i : Nat) (region : VmRegion), task.map.regions[i]? = some region ∧ stopsAt region = true ∧
    task.failsAt i = none) ∨
  (∀ region ∈ task.map.regions, region.stop < 2 ^ 64) ∧
    task.failsAt task.map.regions.length = none

/-- A walk over some regions from a call on comes to one it stops at, or to the end of the map. -/
def Arrives (task : WalkedTask) (stopsAt : VmRegion → Bool) (call : Nat)
    (regions : List VmRegion) : Prop :=
  (∃ (i : Nat) (region : VmRegion), regions[i]? = some region ∧ stopsAt region = true ∧
    task.failsAt (call + i) = none) ∨
  (∀ region ∈ regions, region.stop < 2 ^ 64) ∧ task.failsAt (call + regions.length) = none

namespace Arrives

variable {stopsAt : VmRegion → Bool} {regions : List VmRegion}

theorem alive (arrives : task.Arrives stopsAt call regions) : task.failsAt call = none := by
  rcases arrives with ⟨i, _, _, _, alive⟩ | ⟨_, alive⟩
  · exact failsAt_eq_none_mono (Nat.le_add_right _ _) alive
  · exact failsAt_eq_none_mono (Nat.le_add_right _ _) alive

theorem stop_lt (arrives : task.Arrives stopsAt call [region]) (passes : ¬stopsAt region = true) :
    region.stop < 2 ^ 64 := by
  rcases arrives with ⟨i, other, found, isStop, _⟩ | ⟨below, _⟩
  · have same := List.mem_of_getElem? found
    simp only [List.mem_singleton] at same
    simp only [same] at isStop
    exact absurd isStop passes
  · exact below region List.mem_cons_self

theorem tail (arrives : task.Arrives stopsAt call (region :: regions))
    (passes : ¬stopsAt region = true) : task.Arrives stopsAt (call + 1) regions := by
  rcases arrives with ⟨_ | i, other, found, isStop, alive⟩ | ⟨below, alive⟩
  · simp only [List.getElem?_cons_zero, Option.some.injEq] at found
    simp only [found] at passes
    exact absurd isStop passes
  · left
    refine ⟨i, other, found, isStop, ?_⟩
    rwa [Nat.add_right_comm, Nat.add_assoc]
  · right
    refine ⟨fun other present => below other (List.mem_cons_of_mem _ present), ?_⟩
    simp only [List.length_cons] at alive
    rwa [Nat.add_right_comm, Nat.add_assoc]

end Arrives

/-- The calls fail, or the walk is between two regions after at least as many calls. -/
def Underway (task : WalkedTask) (walk : RegionWalk) : Prop :=
  task.failsAt walk.calls ≠ none ∨
    ∃ done rest, task.map.CutAt walk.address done rest ∧ done.length ≤ walk.calls

theorem past_found_at_top (present : region ∈ task.map.regions) (atTop : ¬region.stop < 2 ^ 64)
    (calls : Nat) : (RegionWalk.found region calls).past.address = 0#64 := by
  have fits := (task.map.inside region present).1
  apply BitVec.eq_of_toNat_eq
  simp only [VmRegion.stop] at fits atTop
  simp only [RegionWalk.past, RegionWalk.found, BitVec.toNat_add, BitVec.toNat_ofNat]
  omega

/-- Behind a region comes the next one, or the start of the map again. -/
theorem underway_past (cut : task.map.CutAt walk.address done (region :: rest))
    (few : done.length ≤ walk.calls) :
    task.Underway (RegionWalk.found region (walk.calls + 1)).past := by
  right
  by_cases fits : region.stop < 2 ^ 64
  · refine ⟨_, _, cut.next fits, ?_⟩
    simpa [RegionWalk.past, RegionWalk.found] using few
  · have present : region ∈ task.map.regions := by
      rw [cut.split]
      simp
    refine ⟨[], task.map.regions, ?_, Nat.zero_le _⟩
    rw [past_found_at_top present fits]
    exact task.map.cutAt_zero

namespace Walks

variable {Result : Type} {stopsAt : VmRegion → Bool}
  {body : RegionWalk → Iteration RegionWalk Result} (walks : task.Walks stopsAt body)

include walks

theorem calls_of_goesOn (wentOn : body walk = .goesOn next) : next.calls = walk.calls + 1 := by
  cases fails : task.failsAt walk.calls with
  | some code =>
      have cases := walks.failed walk code fails
      split at cases
      · rcases cases with ⟨result, left⟩
        apply absurd left
        exact ne_leaves_of_goesOn wentOn
      · rcases cases with ⟨other, again, calls⟩
        simp only [wentOn] at again
        rw [Iteration.goesOn.inj again]
        exact calls
  | none =>
      cases present : task.map.regionFrom walk.address with
      | none =>
          rcases walks.ended walk fails present with ⟨result, left⟩
          apply absurd left
          exact ne_leaves_of_goesOn wentOn
      | some region =>
          have cases := walks.found walk region fails present
          split at cases
          · rcases cases with ⟨result, left⟩
            apply absurd left
            exact ne_leaves_of_goesOn wentOn
          · simp only [wentOn] at cases
            rw [Iteration.goesOn.inj cases]
            rfl

/-- A loop whose calls come to fail with `KERN_INVALID_ADDRESS` is left. -/
theorem exists_leaves_of_invalid (failure : task.failure = some (call, KERN_INVALID_ADDRESS))
    (walk : RegionWalk) : ∃ result, Leaves body walk result := by
  apply exists_leaves_of_measure fun walk : RegionWalk => call - walk.calls
  intro walk next wentOn
  have calls := walks.calls_of_goesOn wentOn
  have early : walk.calls < call := by
    by_contra late
    have fails := failsAt_eq_some_iff.mpr ⟨call, Nat.le_of_not_lt late, failure⟩
    have left := walks.failed walk _ fails
    rw [if_pos rfl] at left
    rcases left with ⟨result, left⟩
    apply absurd left
    exact ne_leaves_of_goesOn wentOn
  omega

/-- From a place between the regions the loop comes to a region it stops at, or to the end. -/
theorem exists_leaves_of_cutAt (cut : task.map.CutAt walk.address done rest)
    (arrives : task.Arrives stopsAt walk.calls rest) : ∃ result, Leaves body walk result := by
  induction rest generalizing walk done with
  | nil =>
      rcases walks.ended walk arrives.alive cut.regionFrom_eq with ⟨result, left⟩
      exact ⟨result, .now left⟩
  | cons region rest ih =>
      have here := walks.found walk region arrives.alive cut.regionFrom_eq
      split at here
      · rcases here with ⟨result, left⟩
        exact ⟨result, .now left⟩
      · rename_i passes
        have later := arrives.tail passes
        have fits : region.stop < 2 ^ 64 := by
          rcases rest with _ | ⟨second, others⟩
          · exact arrives.stop_lt passes
          · exact cut.stop_lt
        simp only [leaves_iff_of_goesOn here]
        exact ih (cut.next fits) later

/-- A walk that is not to end goes on from wherever it is. -/
theorem underway_next (endless : ¬task.Ends stopsAt) (underway : task.Underway walk) :
    ∃ next, body walk = .goesOn next ∧ task.Underway next := by
  cases fails : task.failsAt walk.calls with
  | some code =>
      have other : code ≠ KERN_INVALID_ADDRESS := by
        rintro rfl
        rcases failsAt_eq_some_iff.mp fails with ⟨first, _, failure⟩
        apply endless
        exact Or.inl ⟨first, failure⟩
      have goesOn := walks.failed walk code fails
      simp only [if_neg other] at goesOn
      rcases goesOn with ⟨next, wentOn, calls⟩
      refine ⟨next, wentOn, Or.inl ?_⟩
      simp only [calls, failsAt_mono (Nat.le_succ _) fails]
      simp
  | none =>
      rcases underway with failed | ⟨done, rest, cut, few⟩
      · exact absurd fails failed
      · have alive := failsAt_eq_none_mono few fails
        cases rest with
        | nil =>
            exfalso
            apply endless
            have all : task.map.regions = done := by simpa using cut.split
            refine Or.inr (Or.inr ⟨?_, by rwa [all]⟩)
            intro region present
            simp only [all] at present
            exact Nat.lt_of_le_of_lt (cut.done region present) walk.address.isLt
        | cons region rest =>
            have present : task.map.regions[done.length]? = some region := by
              rw [cut.split]
              simp
            have here := walks.found walk region fails cut.regionFrom_eq
            split at here
            · rename_i isStop
              exact absurd (Or.inr (Or.inl ⟨_, region, present, isStop, alive⟩)) endless
            · exact ⟨_, here, underway_past cut few⟩

/-- Where the walk does not come to an end, there is always a next region or a failed call. -/
theorem not_leaves_of_not_ends (endless : ¬task.Ends stopsAt) (size : BitVec 64)
    (info : VmRegionInfo) : ¬∃ result, Leaves body (.start size info) result := by
  apply not_leaves_of_invariant task.Underway
  · intro walk underway
    exact walks.underway_next endless underway
  · exact Or.inr ⟨[], task.map.regions, task.map.cutAt_zero, Nat.zero_le _⟩

theorem leaves_iff_ends (size : BitVec 64) (info : VmRegionInfo) :
    (∃ result, Leaves body (.start size info) result) ↔ task.Ends stopsAt := by
  constructor
  · intro left
    by_contra endless
    exact walks.not_leaves_of_not_ends endless size info left
  · rintro (⟨call, failure⟩ | stops)
    · exact walks.exists_leaves_of_invalid failure _
    · apply walks.exists_leaves_of_cutAt task.map.cutAt_zero
      simpa [Arrives, RegionWalk.start] using stops

end Walks

/-! ## The two loops are such loops -/

variable {fileType : BitVec 32} {imageName : Option (List Byte)}

/-- A region that starts with the header of an image of a type, in either byte order. -/
def isCandidate (fileType : BitVec 32) (region : VmRegion) : Bool :=
  region.info.readable ∧ sizeofMachHeader ≤ region.size ∧
    (word region.contents 0 = MH_MAGIC ∨ word region.contents 0 = MH_CIGAM) ∧
    word region.contents 12 = fileType

/-- What `findAddress` makes of the first such region. -/
def verdict (imageName : Option (List Byte)) (region : VmRegion) : Option Address :=
  (nameDiffers region.contents imageName).map fun differs =>
    if differs then 0#64 else region.start

theorem read_of_failsAt {here : RegionWalk} (fails : task.failsAt call = some code) :
    task.read call here = none := by
  simp only [read, fails, Option.isSome_some, if_true]

theorem findAddressBody_of_failsAt (fails : task.failsAt walk.calls = some code) :
    task.findAddressBody fileType imageName walk =
      if code ≠ KERN_INVALID_ADDRESS then
        .goesOn ({ walk with calls := walk.calls + 1 } : RegionWalk).past
      else .leaves (some 0#64) := by
  simp only [findAddressBody, machVmRegion_of_failsAt fails, read_of_failsAt fails, ite_self]

/-- Behind the last region the variables are those of the last one, which cannot be read there. -/
theorem findAddressBody_of_none (alive : task.failsAt walk.calls = none)
    (past : task.map.regionFrom walk.address = none) :
    task.findAddressBody fileType imageName walk = .leaves (some 0#64) := by
  simp only [findAddressBody, machVmRegion_of_none alive past, ne_eq, not_true_eq_false, if_false]
  split
  · rfl
  · rename_i examined
    simp only [not_or, Nat.not_lt, sizeofMachHeader] at examined
    have unread : task.read walk.calls { walk with calls := walk.calls + 1 } = none := by
      simp only [read, alive, Option.isSome_none, Bool.false_eq_true, if_false]
      apply RegionMap.machVmRead_of_regionFrom_none past
      omega
    simp only [unread]

theorem read_found (alive : task.failsAt walk.calls = none) (present : region ∈ task.map.regions)
    (readable : region.info.readable = true) :
    task.read walk.calls (.found region (walk.calls + 1)) = some region.contents := by
  have size_eq : (BitVec.ofNat 64 region.size).toNat = region.size := by
    simp only [BitVec.toNat_ofNat, Nat.mod_eq_of_lt (task.map.inside region present).2]
  simp only [read, alive, Option.isSome_none, Bool.false_eq_true, if_false, RegionWalk.found,
    size_eq]
  exact RegionMap.machVmRead_region present readable

theorem findAddressBody_of_some (alive : task.failsAt walk.calls = none)
    (present : task.map.regionFrom walk.address = some region) :
    task.findAddressBody fileType imageName walk =
      if isCandidate fileType region then .leaves (verdict imageName region)
      else .goesOn (RegionWalk.found region (walk.calls + 1)).past := by
  have mem := List.mem_of_find?_eq_some present
  have success : KERN_SUCCESS ≠ KERN_INVALID_ADDRESS := by decide
  have size_eq : (RegionWalk.found region (walk.calls + 1)).size.toNat = region.size := by
    simp only [RegionWalk.found]
    simp only [BitVec.toNat_ofNat, Nat.mod_eq_of_lt (task.map.inside region mem).2]
  have info_eq : (RegionWalk.found region (walk.calls + 1)).info = region.info := rfl
  simp only [findAddressBody, machVmRegion_of_some alive present, size_eq, info_eq,
    if_pos success]
  split
  · rename_i skipped
    have notCandidate : isCandidate fileType region = false := by
      simp only [isCandidate, decide_eq_false_iff_not]
      rintro ⟨readable, large, _⟩
      rcases skipped with unreadable | small
      · simp only [readable] at unreadable
        cases unreadable
      · apply absurd small
        exact Nat.not_lt.mpr large
    rw [notCandidate]
    rfl
  · rename_i examined
    simp only [not_or, Bool.not_eq_false, Nat.not_lt] at examined
    have candidate_eq : isCandidate fileType region = decide
        ((word region.contents 0 = MH_MAGIC ∨ word region.contents 0 = MH_CIGAM) ∧
          word region.contents 12 = fileType) := by
      simp only [isCandidate, examined, true_and]
    simp only [read_found alive mem examined.1, candidate_eq, decide_eq_true_eq]
    split
    · simp only [verdict]
      cases nameDiffers region.contents imageName with
      | none => rfl
      | some differs => cases differs <;> rfl
    · rfl

theorem walks_findAddressBody (task : WalkedTask) (fileType : BitVec 32)
    (imageName : Option (List Byte)) :
    task.Walks (isCandidate fileType) (task.findAddressBody fileType imageName) where
  failed walk code fails := by
    rw [findAddressBody_of_failsAt fails]
    by_cases invalid : code = KERN_INVALID_ADDRESS
    · simp only [if_pos invalid, if_neg (not_not_intro invalid)]
      exact ⟨_, rfl⟩
    · simp only [if_neg invalid, if_pos invalid]
      exact ⟨_, rfl, rfl⟩
  ended walk alive past := ⟨_, findAddressBody_of_none alive past⟩
  found walk region alive present := by
    rw [findAddressBody_of_some alive present]
    split
    · exact ⟨_, rfl⟩
    · rfl

theorem logMemoryStateBody_eq (task : WalkedTask) (walk : RegionWalk) :
    task.logMemoryStateBody walk =
      if (task.machVmRegion walk).1 = KERN_INVALID_ADDRESS then .leaves ()
      else .goesOn (task.machVmRegion walk).2.past := by
  simp only [logMemoryStateBody]
  split
  · rfl
  · split
    · rfl
    · split <;> rfl

theorem walks_logMemoryStateBody (task : WalkedTask) :
    task.Walks (fun _ => false) task.logMemoryStateBody where
  failed walk code fails := by
    simp only [logMemoryStateBody_eq, machVmRegion_of_failsAt fails]
    split
    · exact ⟨_, rfl⟩
    · exact ⟨_, rfl, rfl⟩
  ended walk alive past := by
    refine ⟨(), ?_⟩
    simp only [logMemoryStateBody_eq, machVmRegion_of_none alive past, if_true]
  found walk region alive present := by
    have success : KERN_SUCCESS ≠ KERN_INVALID_ADDRESS := by decide
    simp only [logMemoryStateBody_eq, machVmRegion_of_some alive present, if_neg success,
      Bool.false_eq_true, if_false]

/--
The two walks end exactly if they come to the end of the map, to a call that fails with
`KERN_INVALID_ADDRESS` or, when an image is looked for, to a region that may be one.
-/
theorem walks_end_iff (task : WalkedTask) (fileType : BitVec 32) (imageName : Option (List Byte))
    (size : BitVec 64) (info : VmRegionInfo) :
    ((∃ answer, Leaves (task.findAddressBody fileType imageName) (.start size info) answer) ↔
      task.Ends (isCandidate fileType)) ∧
    ((∃ result, Leaves task.logMemoryStateBody (.start size info) result) ↔
      task.Ends fun _ => false) :=
  ⟨(task.walks_findAddressBody fileType imageName).leaves_iff_ends size info,
    task.walks_logMemoryStateBody.leaves_iff_ends size info⟩

/-! ## A task that dies during a walk -/

def MACH_SEND_INVALID_DEST : KernReturn := 0x10000003

/-- A task with a single region, which dies once that has been reported. -/
def dyingTask : WalkedTask where
  map := { regions := [⟨0x1000#64, [0#8], ⟨VM_PROT_READ, 1#32⟩⟩]
           nonempty := by decide
           sorted := by decide
           inside := by decide }
  failure := some (1, MACH_SEND_INVALID_DEST)
  failed := by
    rintro call code ⟨⟩
    decide

theorem not_ends_dyingTask : ¬dyingTask.Ends fun _ => false := by
  rintro (⟨call, failure⟩ | ⟨_, _, _, stops, _⟩ | ⟨_, alive⟩)
  · have same := (Prod.mk.inj (Option.some.inj failure)).2
    revert same
    decide
  · cases stops
  · revert alive
    decide

theorem not_ends_dyingTask_candidate : ¬dyingTask.Ends (isCandidate MH_DYLIB) := by
  intro ends
  apply not_ends_dyingTask
  refine ends.imp_right (Or.imp_left ?_)
  rintro ⟨i, region, present, candidate, alive⟩
  refine ⟨i, region, present, ?_, alive⟩
  rw [← candidate]
  have only : region ∈ dyingTask.map.regions := List.mem_of_getElem? present
  simp only [dyingTask, List.mem_singleton] at only
  rw [only]
  decide

/-- Neither walk over the memory of a task ends that dies on the way. -/
theorem not_walks_end_dyingTask :
    (¬∃ answer, Leaves (dyingTask.findAddressBody MH_DYLIB none)
      (.start 0#64 ⟨0#32, 0#32⟩) answer) ∧
    ¬∃ result, Leaves dyingTask.logMemoryStateBody (.start 0#64 ⟨0#32, 0#32⟩) result := by
  constructor
  · rw [(dyingTask.walks_findAddressBody MH_DYLIB none).leaves_iff_ends]
    exact not_ends_dyingTask_candidate
  · rw [dyingTask.walks_logMemoryStateBody.leaves_iff_ends]
    exact not_ends_dyingTask

end WalkedTask

end RustDbg
