import RustDbg.Code.Targets

/-!
# Which procedures scanning covers

Every call target that the scanner computes is looked up among the regions. One that is not
found is scanned and gets a region of its own; one that is found is left alone, also when it
is the address behind the last byte of the region, or an address 4 GiB apart from one of its
bytes, so that no region covers it. And some direct calls are skipped: those with a 16-bit
operand, and those to address 0.
-/

namespace RustDbg

namespace ScanInput

open Traversal

variable {input : ScanInput} {start : Address}

def Covered (regions : List MDBCodeRegion) (address : Address) : Prop :=
  ∃ region ∈ regions, region.InRange address

/-- The calls of `scanProcedure` made by the one for a start address with no regions recorded. -/
def Makes (input : ScanInput) (start : Address) (call : List MDBCodeRegion × Address) : Prop :=
  Reaches input.enter ([], start) call

/-- A call that finds no region for its address, and so scans the procedure there. -/
def Scans (input : ScanInput) (start : Address) (call : List MDBCodeRegion × Address) : Prop :=
  input.Makes start call ∧ getRegion call.1 call.2 = none

/-- A call that finds a region for its address although none covers it. -/
def Slips (input : ScanInput) (start : Address) (call : List MDBCodeRegion × Address) : Prop :=
  input.Makes start call ∧ (getRegion call.1 call.2).isSome ∧ ¬Covered call.1 call.2

/-- A call with its target in the instruction, and its offset. -/
def DirectCall (instruction : Nat × ScannedInstruction) : Prop :=
  instruction.2.mnemonic = .UD_Icall ∧ instruction.2.operand.type = .UD_OP_JIMM

/-- Where a direct call in a procedure goes to; with a 16-bit operand 16 bits of that are left. -/
def directTarget (address : Address) (call : Nat × ScannedInstruction) : Address :=
  let behind := address + BitVec.ofNat 64 (call.1 + call.2.size)
  if call.2.operand.size = 16 then
    ((behind + (call.2.operand.sdword.setWidth 16).signExtend 64).setWidth 16).setWidth 64
  else behind + call.2.operand.sdword.signExtend 64

/-- A scan decodes a direct call. -/
def Decodes (input : ScanInput) (start : Address) (scan : List MDBCodeRegion × Address)
    (call : Nat × ScannedInstruction) : Prop :=
  input.Scans start scan ∧ DirectCall call ∧ ∃ instructions ending,
    Linear input.ud 0 (input.buffer scan.2) instructions ending ∧ call ∈ instructions

/-- A scan decodes a direct call to an address, and takes it for no call target. -/
def Skips (input : ScanInput) (start target : Address) : Prop :=
  ∃ scan call, input.Decodes start scan call ∧
    callTarget scan.2 (call.1 + call.2.size) call.2.operand = 0 ∧ directTarget scan.2 call = target

/-- An address is in the range of a procedure that is scanned. -/
def RunOver (input : ScanInput) (start address : Address) : Prop :=
  ∃ scan, input.Scans start scan ∧ ∃ region, input.region scan.2 = some region ∧
    region.InRange address

/-- Every procedure that is scanned decodes to a return. -/
def ScannedReturn (input : ScanInput) (start : Address) : Prop :=
  ∀ call, input.Scans start call → (input.region call.2).isSome

/-- The regions cover the start address and the target of every direct call that a scan decodes. -/
def CoversTargets (input : ScanInput) (start : Address) (regions : List MDBCodeRegion) : Prop :=
  Covered regions start ∧ ∀ scan call, input.Decodes start scan call →
    Covered regions (directTarget scan.2 call)

theorem Covered.mono {regions later : List MDBCodeRegion} {address : Address}
    (covered : Covered regions address) (evolves : Evolves input.enter regions later) :
    Covered later address := by
  rcases adds_of_evolves evolves with ⟨new, adds⟩
  rcases covered with ⟨region, present, inRange⟩
  refine ⟨region, ?_, inRange⟩
  rw [adds.appended]
  exact List.mem_append_left new present

theorem length_le_of_evolves_enter {regions later : List MDBCodeRegion}
    (evolves : Evolves input.enter regions later) : regions.length ≤ later.length := by
  rcases adds_of_evolves evolves with ⟨new, adds⟩
  simp only [adds.appended, List.length_append]
  exact Nat.le_add_right _ _

/-- A procedure that returns is recorded before its call targets are looked up. -/
theorem length_lt_of_calls {call next : List MDBCodeRegion × Address}
    (scannedReturn : input.ScannedReturn start) (made : input.Makes start call)
    (calls : Calls input.enter call next) : call.1.length < next.1.length := by
  rcases calls with ⟨entered, before, rest, enters, path⟩
  rcases enter_eq_some_iff.mp enters with ⟨fresh, rfl, _⟩
  rcases Option.isSome_iff_exists.mp (scannedReturn call ⟨made, fresh⟩) with ⟨region, found⟩
  have later := length_le_of_evolves_enter (path.evolves fun _ _ _ callee => callee.evolves)
  simp only [found, Option.toList_some, List.length_append, List.length_singleton] at later
  omega

/-- Where every procedure that is scanned returns, scanning terminates. -/
theorem exists_returns (scannedReturn : input.ScannedReturn start) :
    ∃ after, input.Returns [] start after := by
  apply (exists_returns_iff List.length (0 + 2 ^ 64) grows_of_enter
    fun _ evolves => length_le_of_evolves evolves).mpr
  intro call made cycle
  have longer : ∀ next, Relation.TransGen (Calls input.enter) call next →
      call.1.length < next.1.length ∧ input.Makes start next := by
    intro next path
    induction path with
    | single calls => exact ⟨length_lt_of_calls scannedReturn made calls, made.tail calls⟩
    | tail _ calls ih =>
        exact ⟨ih.1.trans (length_lt_of_calls scannedReturn ih.2 calls), ih.2.tail calls⟩
  apply absurd (longer call cycle).1
  exact Nat.lt_irrefl _

/-- A call ends with its address covered exactly if it does not slip. -/
theorem covered_after_call {call : List MDBCodeRegion × Address} {after : List MDBCodeRegion}
    (scannedReturn : input.ScannedReturn start) (made : input.Makes start call)
    (returned : input.Returns call.1 call.2 after) :
    Covered after call.2 ↔ ¬input.Slips start call := by
  cases found : getRegion call.1 call.2 with
  | some region =>
      have pruned : input.enter call.1 call.2 = none :=
        enter_eq_none_iff.mpr (Option.isSome_of_eq_some found)
      have same := (returns_of_pruned pruned).mp returned
      rw [same]
      simp [Slips, made, found]
  | none =>
      have noSlip : ¬input.Slips start call := by
        rintro ⟨_, isSome, _⟩
        simp only [found] at isSome
        cases isSome
      simp only [noSlip, not_false_eq_true, iff_true]
      rcases Option.isSome_iff_exists.mp (scannedReturn call ⟨made, found⟩) with ⟨region, recorded⟩
      have path := (returns_of_entered (enter_of_fresh found)).mp returned
      rcases size_region recorded with ⟨same, size⟩
      have covered : Covered (call.1 ++ (input.region call.2).toList) call.2 := by
        refine ⟨region, ?_, ?_⟩
        · rw [recorded]
          apply List.mem_append_right _
          exact List.mem_singleton_self region
        · rw [← same]
          exact MDBCodeRegion.inRange_start size.1
      apply covered.mono
      exact path.evolves fun _ _ _ callee => callee.evolves

/-! ## The regions at the end -/

section End

variable {regions : List MDBCodeRegion} (returned : input.Returns [] start regions)

include returned

theorem returns_of_makes {call : List MDBCodeRegion × Address} (made : input.Makes start call) :
    ∃ after, input.Returns call.1 call.2 after ∧ Evolves input.enter after regions := by
  have first : Traversal.Returns input.enter [] start regions := returned
  exact Traversal.Returns.of_reaches first made

/-- The regions are those that the scans record. -/
theorem mem_iff_exists_scans {region : MDBCodeRegion} :
    region ∈ regions ↔ ∃ call, input.Scans start call ∧ input.region call.2 = some region := by
  rw [mem_iff_exists_records (.cons returned .nil)]
  constructor
  · rintro ⟨call, made, fresh, recorded⟩
    exact ⟨call, ⟨madeAmong_singleton.mp made, fresh⟩, recorded⟩
  · rintro ⟨call, ⟨made, fresh⟩, recorded⟩
    exact ⟨call, madeAmong_singleton.mpr made, fresh, recorded⟩

theorem covered_of_not_slips {call : List MDBCodeRegion × Address}
    (scannedReturn : input.ScannedReturn start) (made : input.Makes start call)
    (noSlip : ¬input.Slips start call) : Covered regions call.2 := by
  rcases returns_of_makes returned made with ⟨after, returnedCall, evolves⟩
  exact ((covered_after_call scannedReturn made returnedCall).mpr noSlip).mono evolves

theorem covered_iff_runOver {address : Address} :
    Covered regions address ↔ input.RunOver start address := by
  constructor
  · rintro ⟨region, present, inRange⟩
    rcases (mem_iff_exists_scans returned).mp present with ⟨scan, scans, recorded⟩
    exact ⟨scan, scans, region, recorded, inRange⟩
  · rintro ⟨scan, scans, region, recorded, inRange⟩
    exact ⟨region, (mem_iff_exists_scans returned).mpr ⟨scan, scans, recorded⟩, inRange⟩

/-- The addresses looked up are covered but for lookups that slip. -/
theorem covered_iff_of_made {call : List MDBCodeRegion × Address}
    (scannedReturn : input.ScannedReturn start) (made : input.Makes start call) :
    Covered regions call.2 ↔ (input.Slips start call → input.RunOver start call.2) := by
  rw [← covered_iff_runOver returned]
  constructor
  · exact fun covered _ => covered
  · intro runOver
    by_cases slips : input.Slips start call
    · exact runOver slips
    · exact covered_of_not_slips returned scannedReturn made slips

end End

/-! ## Direct calls and call targets -/

/-- A direct call has the target that the scanner computes for it, or is skipped. -/
theorem callTarget_of_directCall {address : Address} {call : Nat × ScannedInstruction}
    (direct : DirectCall call) :
    callTarget address (call.1 + call.2.size) call.2.operand = 0 ∨
      NearCall call ∧
        callTarget address (call.1 + call.2.size) call.2.operand = directTarget address call := by
  by_cases wide : call.2.operand.size = 32
  · right
    refine ⟨⟨direct.1, direct.2, wide⟩, ?_⟩
    have notShort : ¬call.2.operand.size = 16 := by omega
    rw [callTarget, if_pos ⟨direct.2, wide⟩, directTarget, if_neg notShort]
  · left
    apply if_neg
    exact fun both => wide both.2

section Targets

variable {regions : List MDBCodeRegion} (returned : input.Returns [] start regions)

include returned

/-- The target of a direct call that is not skipped is looked up. -/
theorem exists_made_of_decodes {scan : List MDBCodeRegion × Address}
    {call : Nat × ScannedInstruction} (decodes : input.Decodes start scan call)
    (taken : callTarget scan.2 (call.1 + call.2.size) call.2.operand ≠ 0) :
    ∃ state, input.Makes start (state, directTarget scan.2 call) := by
  rcases decodes with ⟨scans, direct, instructions, ending, linear, present⟩
  rcases callTarget_of_directCall direct with skipped | ⟨near, same⟩
  · exact absurd skipped taken
  · have decoded : directTarget scan.2 call ∈ (input.procedure scan.2).callTargets :=
      (mem_callTargets linear).mpr ⟨call, present, near, same ▸ taken, same⟩
    rcases returns_of_makes returned scans.1 with ⟨_, returnedCall, _⟩
    rcases Traversal.Returns.exists_calls returnedCall (enter_of_fresh scans.2) decoded with
      ⟨state, calls⟩
    exact ⟨state, scans.1.tail calls⟩

omit returned in
/-- What is looked up is the start address or the target of a direct call that is decoded. -/
theorem exists_decodes_of_made {call : List MDBCodeRegion × Address}
    (made : input.Makes start call) :
    call = ([], start) ∨ ∃ scan insn, input.Decodes start scan insn ∧
      directTarget scan.2 insn = call.2 := by
  rcases Relation.ReflTransGen.cases_tail made with same | ⟨caller, madeCaller, calls⟩
  · exact Or.inl same
  · right
    rcases calls with ⟨entered, before, rest, enters, _⟩
    rcases enter_eq_some_iff.mp enters with ⟨fresh, _, targets⟩
    rcases Linear.exists_linear input.ud 0 (input.buffer caller.2) with
      ⟨instructions, ending, linear⟩
    have decoded : call.2 ∈ (input.procedure caller.2).callTargets := by
      rw [← targets]
      simp
    rcases (mem_callTargets linear).mp decoded with ⟨insn, present, near, nonzero, same⟩
    have direct : DirectCall insn := ⟨near.1, near.2.1⟩
    refine ⟨caller, insn, ⟨⟨madeCaller, fresh⟩, direct, _, _, linear, present⟩, ?_⟩
    rcases callTarget_of_directCall direct with skipped | ⟨-, target⟩
    · exact absurd (same.symm.trans skipped) nonzero
    · exact target.symm.trans same

theorem coversTargets_iff (scannedReturn : input.ScannedReturn start) :
    input.CoversTargets start regions ↔
      (∀ call, input.Slips start call → input.RunOver start call.2) ∧
        ∀ target, input.Skips start target → input.RunOver start target := by
  constructor
  · rintro ⟨startCovered, targetsCovered⟩
    constructor
    · intro call slips
      rw [← covered_iff_runOver returned]
      rcases exists_decodes_of_made slips.1 with rfl | ⟨scan, insn, decodes, same⟩
      · exact startCovered
      · exact same ▸ targetsCovered scan insn decodes
    · rintro _ ⟨scan, insn, decodes, _, rfl⟩
      rw [← covered_iff_runOver returned]
      exact targetsCovered scan insn decodes
  · rintro ⟨slipped, skipped⟩
    refine ⟨(covered_iff_of_made returned scannedReturn .refl).mpr (slipped _), ?_⟩
    intro scan insn decodes
    by_cases taken : callTarget scan.2 (insn.1 + insn.2.size) insn.2.operand = 0
    · rw [covered_iff_runOver returned]
      exact skipped _ ⟨scan, insn, decodes, taken, rfl⟩
    · rcases exists_made_of_decodes returned decodes taken with ⟨state, made⟩
      exact (covered_iff_of_made returned scannedReturn made).mpr (slipped _)

end Targets

/--
Scanning returns. It covers the targets of all direct calls exactly if each target whose
lookup slips and each target of a call that is skipped is run over by some procedure that is
scanned; and every call of it ends with its address covered exactly if no lookup slips.
-/
theorem scanProcedure_covers_iff (input : ScanInput) (start : Address)
    (scannedReturn : input.ScannedReturn start) :
    ∃ regions, input.Returns [] start regions ∧
      (input.CoversTargets start regions ↔
        (∀ call, input.Slips start call → input.RunOver start call.2) ∧
          ∀ target, input.Skips start target → input.RunOver start target) ∧
      ((∀ call, input.Makes start call →
        ∃ after, input.Returns call.1 call.2 after ∧ Covered after call.2) ↔
          ∀ call, ¬input.Slips start call) := by
  rcases exists_returns scannedReturn with ⟨regions, returned⟩
  refine ⟨regions, returned, coversTargets_iff returned scannedReturn, ?_⟩
  constructor
  · intro covered call slips
    rcases covered call slips.1 with ⟨after, returnedCall, coveredAfter⟩
    exact (covered_after_call scannedReturn slips.1 returnedCall).mp coveredAfter slips
  · intro noSlip call made
    rcases returns_of_makes returned made with ⟨after, returnedCall, _⟩
    exact ⟨after, returnedCall,
      (covered_after_call scannedReturn made returnedCall).mpr (noSlip call)⟩

/-! ## Two procedures back to back -/

/-- `call 0x1006; ret` at 0x1000, and the callee, a `ret`, right behind it. -/
def backToBack : Memory :=
  store (fun _ => 0#8) 0x1000#64 [0xE8#8, 0x01#8, 0x00#8, 0x00#8, 0x00#8, 0xC3#8, 0xC3#8]

def callerRegion : MDBCodeRegion := ⟨0x1000#64, none, 6⟩

theorem procedure_backToBack :
    (onlyMemory backToBack).procedure 0x1000#64 = ⟨[0x1006#64], some 6⟩ := by
  decide +kernel

theorem enter_backToBack :
    (onlyMemory backToBack).enter [] 0x1000#64 = some ([callerRegion], [0x1006#64]) := by
  rw [enter_eq_some_iff, region, procedure_backToBack]
  exact ⟨rfl, rfl, rfl⟩

/-- The region of the caller contains the address behind it. -/
theorem enter_callee_backToBack :
    (onlyMemory backToBack).enter [callerRegion] 0x1006#64 = none := by
  simp only [enter_eq_none_iff, isSome_getRegion]
  exact ⟨callerRegion, List.mem_singleton_self _, by decide⟩

theorem makes_backToBack {call : List MDBCodeRegion × Address}
    (made : (onlyMemory backToBack).Makes 0x1000#64 call) :
    call = ([], 0x1000#64) ∨ call = ([callerRegion], 0x1006#64) := by
  induction made with
  | refl => exact Or.inl rfl
  | @tail _ next _ calls ih =>
      rcases next with ⟨state, target⟩
      rcases calls with ⟨entered, before, rest, enters, path⟩
      rcases ih with rfl | rfl
      · simp only [enter_backToBack, Option.some.injEq, Prod.mk.injEq] at enters
        rcases enters with ⟨rfl, targets⟩
        rcases List.append_eq_singleton_iff.mp targets.symm with ⟨rfl, only⟩ | ⟨_, none⟩
        · cases path
          right
          rw [← (List.cons.inj only).1]
        · cases none
      · simp only [enter_callee_backToBack] at enters
        cases enters

theorem scans_backToBack {call : List MDBCodeRegion × Address}
    (scans : (onlyMemory backToBack).Scans 0x1000#64 call) : call = ([], 0x1000#64) := by
  rcases makes_backToBack scans.1 with rfl | rfl
  · rfl
  · have pruned := enter_callee_backToBack
    simp only [(enter_of_fresh scans.2)] at pruned
    cases pruned

theorem scannedReturn_backToBack : (onlyMemory backToBack).ScannedReturn 0x1000#64 := by
  intro call scans
  simp only [scans_backToBack scans, region, procedure_backToBack]
  rfl

/-- The callee of the two procedures is not covered. -/
theorem not_coversTargets_backToBack :
    (∀ bytes, bytes ≠ [] → 0 < ((onlyMemory backToBack).ud.disassemble bytes).size) ∧
      (onlyMemory backToBack).ScannedReturn 0x1000#64 ∧
      (onlyMemory backToBack).Returns [] 0x1000#64 [callerRegion] ∧
      ¬(onlyMemory backToBack).CoversTargets 0x1000#64 [callerRegion] := by
  refine ⟨fun _ more => callsAndReturns_consumes more, scannedReturn_backToBack, ?_, ?_⟩
  · apply (returns_of_entered enter_backToBack).mpr
    exact .cons ((returns_of_pruned enter_callee_backToBack).mpr rfl) .nil
  · rintro ⟨_, covers⟩
    have made : (onlyMemory backToBack).Makes 0x1000#64 ([callerRegion], 0x1006#64) :=
      .single ⟨[callerRegion], [], [], enter_backToBack, .nil⟩
    obtain ⟨scan, insn, decodes, same⟩ : ∃ scan insn,
        (onlyMemory backToBack).Decodes 0x1000#64 scan insn ∧
          directTarget scan.2 insn = 0x1006#64 :=
      (exists_decodes_of_made made).resolve_left (by simp)
    have covered := covers scan insn decodes
    rw [same] at covered
    rcases covered with ⟨region, present, inRange⟩
    simp only [List.mem_singleton.mp present] at inRange
    revert inRange
    simp [MDBCodeRegion.InRange, callerRegion]

theorem scanProcedure_covers_iff_backToBack :
    ∃ regions, (onlyMemory backToBack).Returns [] 0x1000#64 regions ∧
      ((onlyMemory backToBack).CoversTargets 0x1000#64 regions ↔
        (∀ call, (onlyMemory backToBack).Slips 0x1000#64 call →
          (onlyMemory backToBack).RunOver 0x1000#64 call.2) ∧
        ∀ target, (onlyMemory backToBack).Skips 0x1000#64 target →
          (onlyMemory backToBack).RunOver 0x1000#64 target) := by
  rcases scanProcedure_covers_iff _ 0x1000#64 scannedReturn_backToBack with
    ⟨regions, returned, covers, _⟩
  exact ⟨regions, returned, covers⟩

end ScanInput

end RustDbg
