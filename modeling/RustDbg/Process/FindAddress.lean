import RustDbg.Process.RegionWalk

/-!
# Which image is found

`MDBProcess::findAddress` on a task that stays alive. The walk comes to the first region
that may be an image of the type and returns what it makes of that one: if the name is
another one, the search is over.
-/

namespace RustDbg

open Buffer Loop

namespace WalkedTask

/-- A task whose calls do not fail before the end of the map. -/
def living (map : RegionMap) : WalkedTask := ⟨map, none, by simp⟩

/-- The image has a name, and comparing that with the one looked for comes out in a way. -/
def NameCompares (image name : List Byte) (same : Bool) : Prop :=
  ∃ position, MDBMachFile.findImageName image = some (some position) ∧
    equalsAt image position name = some same

/-- The images that are looked for. -/
structure Matches (fileType : BitVec 32) (imageName : Option (List Byte)) (region : VmRegion) :
    Prop where
  readable : region.info.readable = true
  large : sizeofMachHeader ≤ region.size
  magic : word region.contents 0 = MH_MAGIC
  type : word region.contents 12 = fileType
  named : ∀ name, imageName = some name → NameCompares region.contents name true

/-- The address of the lowest match, and 0 for none. -/
structure FindsLowest (map : RegionMap) (fileType : BitVec 32) (imageName : Option (List Byte))
    (answer : Address) : Prop where
  lowest : ∀ region ∈ map.regions, Matches fileType imageName region →
    (∀ other ∈ map.regions, Matches fileType imageName other →
      region.start.toNat ≤ other.start.toNat) → answer = region.start
  none : answer = 0#64 ↔ ∀ region ∈ map.regions, ¬Matches fileType imageName region

/-- What the first region that may be an image must be like, if there is one. -/
def FirstDecides (map : RegionMap) (fileType : BitVec 32) (imageName : Option (List Byte)) :
    Option VmRegion → Prop
  | none => ∀ region ∈ map.regions, region.stop < 2 ^ 64
  | some first =>
      Matches fileType imageName first ∧ first.start ≠ 0#64 ∨
      (∀ region ∈ map.regions, ¬Matches fileType imageName region) ∧
        match imageName with
        | none => first.start = 0#64
        | some name => NameCompares first.contents name false

variable {map : RegionMap} {fileType : BitVec 32} {imageName : Option (List Byte)}
  {walk : RegionWalk} {region first : VmRegion} {done rest : List VmRegion}
  {image name : List Byte} {answer : Address} {result : Option Address}

theorem failsAt_living (map : RegionMap) (call : Nat) : (living map).failsAt call = none := rfl

/-! ## The name -/

theorem nameDiffers_eq_some_iff {differs : Bool} :
    nameDiffers image (some name) = some differs ↔ NameCompares image name (!differs) := by
  simp only [nameDiffers, NameCompares, Option.bind_eq_bind, Option.bind_eq_some_iff,
    Option.pure_def, Option.some.injEq]
  constructor
  · rintro ⟨_, found, position, rfl, same, compared, rfl⟩
    rw [Bool.not_not]
    exact ⟨position, found, compared⟩
  · rintro ⟨position, found, compared⟩
    exact ⟨some position, found, position, rfl, _, compared, Bool.not_not _⟩

/-- Only an image in this byte order has a name. -/
theorem magic_of_nameCompares {same : Bool} (compares : NameCompares image name same) :
    word image 0 = MH_MAGIC := by
  rcases compares with ⟨position, found, _⟩
  simp only [MDBMachFile.findImageName, Option.bind_eq_bind, Option.bind_eq_some_iff,
    Option.pure_def] at found
  rcases found with ⟨magic, magicAt, found⟩
  by_cases isMagic : magic = MH_MAGIC
  · simp only [wordAt, Option.ite_none_right_eq_some, Option.some.injEq] at magicAt
    simp only [magicAt.2, isMagic]
  · simp only [if_neg isMagic, Option.some.injEq] at found
    cases found

theorem NameCompares.unique {same other : Bool} (one : NameCompares image name same)
    (another : NameCompares image name other) : other = same := by
  rcases one with ⟨position, found, compared⟩
  rcases another with ⟨position', found', compared'⟩
  simp only [found, Option.some.injEq] at found'
  simp only [found', compared', Option.some.injEq] at compared
  exact compared

/-! ## Matches and candidates -/

theorem Matches.isCandidate (found : Matches fileType imageName region) :
    isCandidate fileType region = true := by
  simp only [WalkedTask.isCandidate, decide_eq_true_eq]
  exact ⟨found.readable, found.large, Or.inl found.magic, found.type⟩

theorem matches_iff_of_isCandidate (candidate : isCandidate fileType region = true) :
    Matches fileType imageName region ↔ word region.contents 0 = MH_MAGIC ∧
      ∀ name, imageName = some name → NameCompares region.contents name true := by
  simp only [WalkedTask.isCandidate, decide_eq_true_eq] at candidate
  rcases candidate with ⟨readable, large, _, type⟩
  constructor
  · intro found
    exact ⟨found.magic, found.named⟩
  · rintro ⟨magic, named⟩
    exact ⟨readable, large, magic, type, named⟩

/-- What the walk returns for the first candidate, and what that says about the image. -/
theorem verdict_eq_some_iff (candidate : isCandidate fileType first = true) :
    verdict imageName first = some answer ↔
      answer = first.start ∧ Matches fileType imageName first ∨
      ¬Matches fileType imageName first ∧
        match imageName with
        | none => answer = first.start
        | some name => answer = 0#64 ∧ NameCompares first.contents name false := by
  rw [matches_iff_of_isCandidate candidate]
  simp only [verdict, Option.map_eq_some_iff]
  cases imageName with
  | none =>
      simp only [nameDiffers, Option.some.injEq, exists_eq_left', Bool.false_eq_true, if_false,
        reduceCtorEq, false_implies, implies_true, and_true]
      grind
  | some name =>
      simp only [nameDiffers_eq_some_iff, Option.some.injEq, forall_eq']
      constructor
      · rintro ⟨_ | _, compares, rfl⟩
        · left
          exact ⟨rfl, magic_of_nameCompares compares, compares⟩
        · right
          refine ⟨?_, rfl, compares⟩
          rintro ⟨_, same⟩
          cases compares.unique same
      · rintro (⟨rfl, _, same⟩ | ⟨_, rfl, other⟩)
        · exact ⟨false, same, rfl⟩
        · exact ⟨true, other, rfl⟩

/-! ## The walk -/

/-- The walk is left at the first candidate. -/
theorem leaves_iff_of_candidate (cut : map.CutAt walk.address done rest)
    (found : rest.find? (isCandidate fileType) = some first) :
    Leaves ((living map).findAddressBody fileType imageName) walk result ↔
      result = verdict imageName first := by
  induction rest generalizing walk done with
  | nil => cases found
  | cons region rest ih =>
      have body : (living map).findAddressBody fileType imageName walk = _ :=
        findAddressBody_of_some (failsAt_living map walk.calls) cut.regionFrom_eq
      simp only [List.find?_cons] at found
      split at found
      · rename_i candidate
        rw [if_pos candidate, Option.some.inj found] at body
        exact leaves_iff_of_leaves body
      · rename_i passes
        rw [if_neg (by rw [passes]; exact Bool.false_ne_true)] at body
        have fits : region.stop < 2 ^ 64 := by
          rcases rest with _ | ⟨second, others⟩
          · cases found
          · exact cut.stop_lt
        rw [leaves_iff_of_goesOn body]
        exact ih (cut.next fits) found

/-- Without a candidate the walk is left at the end of the map, if there is one. -/
theorem leaves_iff_of_no_candidate (cut : map.CutAt walk.address done rest)
    (below : ∀ region ∈ rest, region.stop < 2 ^ 64)
    (none : rest.find? (isCandidate fileType) = none) :
    Leaves ((living map).findAddressBody fileType imageName) walk result ↔
      result = some 0#64 := by
  induction rest generalizing walk done with
  | nil =>
      apply leaves_iff_of_leaves
      exact findAddressBody_of_none (failsAt_living map walk.calls) cut.regionFrom_eq
  | cons region rest ih =>
      have body : (living map).findAddressBody fileType imageName walk = _ :=
        findAddressBody_of_some (failsAt_living map walk.calls) cut.regionFrom_eq
      simp only [List.find?_cons] at none
      split at none
      · cases none
      · rename_i passes
        rw [if_neg (by rw [passes]; exact Bool.false_ne_true)] at body
        rw [leaves_iff_of_goesOn body]
        apply ih (cut.next (below region List.mem_cons_self)) _ none
        intro other present
        apply below other
        exact List.mem_cons_of_mem _ present

/-- Without a candidate and an end of the map the walk is not left. -/
theorem not_leaves_of_no_candidate (size : BitVec 64) (info : VmRegionInfo)
    (none : map.regions.find? (isCandidate fileType) = none)
    (atTop : ¬∀ region ∈ map.regions, region.stop < 2 ^ 64) :
    ¬∃ result, Leaves ((living map).findAddressBody fileType imageName)
      (.start size info) result := by
  apply ((living map).walks_findAddressBody fileType imageName).not_leaves_of_not_ends
  rintro (⟨_, failure⟩ | ⟨i, region, present, candidate, _⟩ | ⟨below, _⟩)
  · cases failure
  · exact List.find?_eq_none.mp none region (List.mem_of_getElem? present) candidate
  · exact atTop below

/-! ## What the first candidate decides -/

theorem findsLowest_iff_of_no_match (nothing : ∀ region ∈ map.regions,
    ¬Matches fileType imageName region) :
    FindsLowest map fileType imageName answer ↔ answer = 0#64 := by
  constructor
  · intro finds
    apply finds.none.mpr
    exact nothing
  · intro isZero
    refine ⟨?_, iff_of_true isZero nothing⟩
    intro region present found
    apply absurd found
    exact nothing region present

/-- A match that is not the first candidate lies behind it. -/
theorem FindsLowest.stop_le (finds : FindsLowest map fileType imageName answer)
    (found : map.regions.find? (isCandidate fileType) = some first)
    (other : ¬Matches fileType imageName first) (present : region ∈ map.regions)
    (isMatch : Matches fileType imageName region) : first.stop ≤ answer.toNat := by
  classical
  cases lowest : map.regions.find? fun region => decide (Matches fileType imageName region) with
  | none =>
      have none := List.find?_eq_none.mp lowest region present
      simp only [decide_eq_true_eq] at none
      exact absurd isMatch none
  | some least =>
      have leastMatches : Matches fileType imageName least := by
        simpa using List.find?_some lowest
      have mem := List.mem_of_find?_eq_some lowest
      have answer_eq : answer = least.start := by
        apply finds.lowest least mem leastMatches
        intro region present isMatch
        rcases RegionMap.eq_or_stop_le_of_find? lowest present (decide_eq_true isMatch) with
          same | behind
        · rw [same]
        · exact Nat.le_trans (Nat.le_add_right _ _) behind
      rcases RegionMap.eq_or_stop_le_of_find? found mem leastMatches.isCandidate with
        same | behind
      · simp only [same] at leastMatches
        exact absurd leastMatches other
      · rwa [answer_eq]

theorem findsLowest_start (found : map.regions.find? (isCandidate fileType) = some first)
    (isMatch : Matches fileType imageName first) (notZero : first.start ≠ 0#64) :
    FindsLowest map fileType imageName first.start := by
  have mem := List.mem_of_find?_eq_some found
  constructor
  · intro region present regionMatches least
    rcases RegionMap.eq_or_stop_le_of_find? found present regionMatches.isCandidate with
      same | behind
    · rw [same]
    · have order := least first mem isMatch
      have nonempty := map.nonempty first mem
      simp only [VmRegion.stop] at behind
      omega
  · apply iff_of_false notZero
    intro nothing
    exact nothing first mem isMatch

/--
On every map the search finds the lowest image of the type and name, or 0 for none, exactly if
the first region that may be one decides it.
-/
theorem findAddress_findsLowest_iff (map : RegionMap) (fileType : BitVec 32)
    (imageName : Option (List Byte)) (size : BitVec 64) (info : VmRegionInfo) :
    (∃ answer, Leaves ((living map).findAddressBody fileType imageName) (.start size info)
        (some answer) ∧ FindsLowest map fileType imageName answer) ↔
      FirstDecides map fileType imageName (map.regions.find? (isCandidate fileType)) := by
  cases found : map.regions.find? (isCandidate fileType) with
  | none =>
      have nothing : ∀ region ∈ map.regions, ¬Matches fileType imageName region := by
        intro region present isMatch
        exact List.find?_eq_none.mp found region present isMatch.isCandidate
      constructor
      · rintro ⟨answer, left, _⟩
        by_contra atTop
        exact not_leaves_of_no_candidate size info found atTop ⟨_, left⟩
      · intro below
        refine ⟨0#64, ?_, (findsLowest_iff_of_no_match nothing).mpr rfl⟩
        apply (leaves_iff_of_no_candidate map.cutAt_zero below found).mpr
        exact rfl
  | some first =>
      have mem := List.mem_of_find?_eq_some found
      have nonempty := map.nonempty first mem
      have candidate : isCandidate fileType first = true := List.find?_some found
      have left : ∀ answer, Leaves ((living map).findAddressBody fileType imageName)
          (.start size info) (some answer) ↔ verdict imageName first = some answer := by
        intro answer
        rw [eq_comm]
        exact leaves_iff_of_candidate map.cutAt_zero found
      simp only [left, verdict_eq_some_iff candidate]
      constructor
      · rintro ⟨answer, ⟨rfl, isMatch⟩ | ⟨other, outcome⟩, finds⟩
        · left
          refine ⟨isMatch, ?_⟩
          intro isZero
          exact finds.none.mp isZero first mem isMatch
        · right
          have nothing : ∀ region ∈ map.regions, ¬Matches fileType imageName region := by
            intro region present isMatch
            have behind := finds.stop_le found other present isMatch
            have atMost : answer.toNat ≤ first.start.toNat := by
              cases imageName with
              | none => rw [outcome]
              | some name => simp [outcome.1]
            simp only [VmRegion.stop] at behind
            omega
          refine ⟨nothing, ?_⟩
          cases imageName with
          | none => exact outcome ▸ finds.none.mpr nothing
          | some name => exact outcome.2
      · rintro (⟨isMatch, notZero⟩ | ⟨nothing, outcome⟩)
        · exact ⟨_, Or.inl ⟨rfl, isMatch⟩, findsLowest_start found isMatch notZero⟩
        · refine ⟨0#64, Or.inr ⟨nothing first mem, ?_⟩,
            (findsLowest_iff_of_no_match nothing).mpr rfl⟩
          cases imageName with
          | none => exact outcome.symm
          | some name => exact ⟨rfl, outcome⟩

/-! ## A search for the second of two libraries -/

/-- A library whose name is a single character. -/
def namedImage (name : Byte) : List Byte :=
  [0xce, 0xfa, 0xed, 0xfe, 7, 0, 0, 0, 3, 0, 0, 0, 6, 0, 0, 0, 1, 0, 0, 0, 28, 0, 0, 0, 0, 0, 0, 0,
    13, 0, 0, 0, 28, 0, 0, 0, 24, 0, 0, 0, 0, 0, 0, 0, 0, 0, 0, 0, 0, 0, 0, 0, name, 0, 0, 0]

def namedRegion (start : Address) (name : Byte) : VmRegion :=
  ⟨start, namedImage name, ⟨VM_PROT_READ, 1#32⟩⟩

def twoLibraries : RegionMap where
  regions := [namedRegion 0x1000#64 0x62#8, namedRegion 0x2000#64 0x61#8]
  nonempty := by decide
  sorted := by decide
  inside := by decide

theorem not_findAddress_findsLowest_twoLibraries :
    ¬∃ answer, Leaves ((living twoLibraries).findAddressBody MH_DYLIB (some [0x61#8]))
        (.start 0#64 ⟨0#32, 0#32⟩) (some answer) ∧
      FindsLowest twoLibraries MH_DYLIB (some [0x61#8]) answer := by
  rintro ⟨answer, left, finds⟩
  have found : twoLibraries.regions.find? (isCandidate MH_DYLIB) =
      some (namedRegion 0x1000#64 0x62#8) := by decide
  have outcome : verdict (some [0x61#8]) (namedRegion 0x1000#64 0x62#8) = some 0#64 := by decide
  rw [leaves_iff_of_candidate twoLibraries.cutAt_zero found, outcome, Option.some.injEq] at left
  have second : Matches MH_DYLIB (some [0x61#8]) (namedRegion 0x2000#64 0x61#8) := by
    refine ⟨by decide, by decide, by decide, by decide, ?_⟩
    rintro _ ⟨⟩
    exact ⟨52, by decide, by decide⟩
  exact finds.none.mp left _ (by decide) second

end WalkedTask

end RustDbg
