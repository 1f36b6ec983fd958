import RustDbg.Code.Termination

/-!
# The calls that record regions

The regions after a sequence of calls of `scanProcedure` are those that the calls made
by it have recorded, each at the end of the list there was then.
-/

namespace RustDbg

namespace ScanInput

open Traversal

variable {input : ScanInput} {starts : List Address}

/-- Among the calls made by scanning the start addresses, one that records a region. -/
structure Records (input : ScanInput) (starts : List Address)
    (call : List MDBCodeRegion × Address) (region : MDBCodeRegion) : Prop where
  made : MadeAmong input.enter [] starts call
  fresh : getRegion call.1 call.2 = none
  recorded : input.region call.2 = some region

theorem enter_of_fresh {call : List MDBCodeRegion × Address}
    (fresh : getRegion call.1 call.2 = none) : input.enter call.1 call.2 =
      some (call.1 ++ (input.region call.2).toList, (input.procedure call.2).callTargets) := by
  apply enter_eq_some_iff.mpr
  exact ⟨fresh, rfl, rfl⟩

/-- The regions recorded before a call are as scanning from the beginning adds them. -/
theorem adds_of_madeAmong {call : List MDBCodeRegion × Address}
    (made : MadeAmong input.enter [] starts call) : Adds [] call.1 call.1 := by
  rcases adds_of_evolves made.evolves with ⟨new, adds⟩
  have same : call.1 = new := adds.appended
  simp only [← same] at adds
  exact adds

section Sequence

variable {regions : List MDBCodeRegion} (path : Through input.Returns [] starts regions)

include path

/-- A region is recorded behind those there were before, where it stays. -/
theorem isPrefix_of_records {call : List MDBCodeRegion × Address} {region : MDBCodeRegion}
    (records : input.Records starts call region) : (call.1 ++ [region]).IsPrefix regions := by
  have sequence : Through (Traversal.Returns input.enter) [] starts regions := path
  rcases sequence.of_madeAmong records.made with ⟨after, returned, evolves⟩
  have callees := (returns_of_entered (enter_of_fresh records.fresh)).mp returned
  have later := (callees.evolves fun _ _ _ callee => callee.evolves).trans evolves
  rcases adds_of_evolves later with ⟨new, adds⟩
  simp only [records.recorded, Option.toList_some] at adds
  exact ⟨new, adds.appended.symm⟩

theorem isPrefix_of_madeAmong {call : List MDBCodeRegion × Address}
    (made : MadeAmong input.enter [] starts call) : call.1.IsPrefix regions := by
  have sequence : Through (Traversal.Returns input.enter) [] starts regions := path
  rcases sequence.of_madeAmong made with ⟨after, returned, evolves⟩
  rcases adds_of_evolves (returned.evolves.trans evolves) with ⟨new, adds⟩
  exact ⟨new, adds.appended.symm⟩

theorem mem_iff_exists_records {region : MDBCodeRegion} :
    region ∈ regions ↔ ∃ call, input.Records starts call region := by
  constructor
  · let Recorded : List MDBCodeRegion → Prop := fun regions => ∀ region ∈ regions,
      ∃ call, input.Records starts call region
    have sequence : Through (Traversal.Returns input.enter) [] starts regions := path
    have recorded : Recorded regions := by
      apply sequence.invariant
      · intro call entered targets made earlier enters region present
        rcases enter_eq_some_iff.mp enters with ⟨fresh, rfl, _⟩
        rcases List.mem_append.mp present with old | latest
        · exact earlier region old
        · exact ⟨call, made, fresh, by simpa using latest⟩
      · intro region none
        cases none
    exact recorded region
  · rintro ⟨call, records⟩
    apply (isPrefix_of_records path records).subset
    apply List.mem_append_right _
    exact List.mem_singleton_self region

/-- A relation holds between all regions exactly if recording one keeps it to the earlier ones. -/
theorem pairwise_iff_forall_records {Rel : MDBCodeRegion → MDBCodeRegion → Prop} :
    regions.Pairwise Rel ↔ ∀ call region, input.Records starts call region →
      ∀ earlier ∈ call.1, Rel earlier region := by
  constructor
  · intro pairwise call region records earlier present
    have both := pairwise.sublist (isPrefix_of_records path records).sublist
    apply (List.pairwise_append.mp both).2.2 earlier present region
    exact List.mem_singleton_self _
  · intro each
    have sequence : Through (Traversal.Returns input.enter) [] starts regions := path
    apply sequence.invariant ?_ List.Pairwise.nil
    intro call entered targets made pairwise enters
    rcases enter_eq_some_iff.mp enters with ⟨fresh, rfl, _⟩
    cases recorded : input.region call.2 with
    | none =>
        simp only [Option.toList_none, List.append_nil]
        exact pairwise
    | some region =>
        simp only [Option.toList_some, List.pairwise_append]
        refine ⟨pairwise, List.pairwise_singleton _ _, ?_⟩
        intro earlier present latest latestMem
        rw [List.mem_singleton.mp latestMem]
        exact each call region ⟨made, fresh, recorded⟩ earlier present

end Sequence

end ScanInput

end RustDbg
