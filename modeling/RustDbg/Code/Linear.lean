import RustDbg.Breakpoint.Access
import RustDbg.Code.Overlap

/-!
# Regions reach up to the first return

`MDBCode::scanProcedure` decodes the bytes behind an address instruction by instruction.
`Linear` says what such a decoding meets, apart from what the loop makes of it; the regions
that scanning records are then determined by it.
-/

namespace RustDbg

/-- How linear decoding ends. -/
inductive DecodingEnd where
  | returned
  | undecodable
  | exhausted
deriving DecidableEq, Repr

/-- Linear decoding from an offset on: the instructions it meets, the first return included. -/
inductive Linear (ud : Disassembler) :
    Nat → List Byte → List (Nat × ScannedInstruction) → DecodingEnd → Prop where
  | exhausted {offset : Nat} : Linear ud offset [] [] .exhausted
  | undecodable {offset : Nat} {bytes : List Byte} (more : bytes ≠ [])
      (stuck : (ud.disassemble bytes).size = 0) : Linear ud offset bytes [] .undecodable
  | returned {offset : Nat} {bytes : List Byte} (consumed : (ud.disassemble bytes).size ≠ 0)
      (ret : (ud.disassemble bytes).mnemonic = .UD_Iret) :
      Linear ud offset bytes [(offset, ud.disassemble bytes)] .returned
  | next {offset : Nat} {bytes : List Byte} {rest : List (Nat × ScannedInstruction)}
      {ending : DecodingEnd} (consumed : (ud.disassemble bytes).size ≠ 0)
      (going : (ud.disassemble bytes).mnemonic ≠ .UD_Iret)
      (later : Linear ud (offset + (ud.disassemble bytes).size)
        (bytes.drop (ud.disassemble bytes).size) rest ending) :
      Linear ud offset bytes ((offset, ud.disassemble bytes) :: rest) ending

namespace Linear

variable {ud : Disassembler} {offset : Nat} {bytes : List Byte}
  {instructions : List (Nat × ScannedInstruction)} {ending : DecodingEnd}

theorem exists_linear (ud : Disassembler) (offset : Nat) (bytes : List Byte) :
    ∃ instructions ending, Linear ud offset bytes instructions ending := by
  induction length_eq : bytes.length using Nat.strong_induction_on generalizing offset bytes with
  | _ _ ih =>
      by_cases empty : bytes = []
      · subst empty
        exact ⟨[], .exhausted, .exhausted⟩
      · by_cases stuck : (ud.disassemble bytes).size = 0
        · exact ⟨[], .undecodable, .undecodable empty stuck⟩
        · by_cases ret : (ud.disassemble bytes).mnemonic = .UD_Iret
          · exact ⟨_, .returned, .returned stuck ret⟩
          · have nonempty := List.length_pos_iff.mpr empty
            have shorter : (bytes.drop (ud.disassemble bytes).size).length < bytes.length := by
              rw [List.length_drop]
              omega
            simp only [length_eq] at shorter
            rcases ih _ shorter (offset + (ud.disassemble bytes).size) _ rfl with
              ⟨rest, ending, later⟩
            exact ⟨_, ending, .next stuck ret later⟩

/-- Only the last instruction of a decoding is a return. -/
theorem exists_return (linear : Linear ud offset bytes instructions .returned) :
    ∃ before last, instructions = before ++ [last] ∧ last.2.mnemonic = .UD_Iret ∧
      ∀ earlier ∈ before, earlier.2.mnemonic ≠ .UD_Iret := by
  generalize returned : DecodingEnd.returned = ending at linear
  induction linear with
  | exhausted => cases returned
  | undecodable => cases returned
  | @returned offset bytes _ ret => exact ⟨[], _, rfl, ret, by simp⟩
  | @next offset bytes _ _ _ going _ ih =>
      rcases ih returned with ⟨before, last, rfl, ret, others⟩
      refine ⟨(offset, ud.disassemble bytes) :: before, last, rfl, ret, ?_⟩
      intro earlier present
      rcases List.mem_cons.mp present with rfl | inBefore
      · exact going
      · exact others earlier inBefore

end Linear

namespace ScanInput

open Traversal

/-! ## The decoding loop -/

/-- What the loop makes of an instruction. -/
def recordTarget (address : Address) (callTargets : List Address)
    (instruction : Nat × ScannedInstruction) : List Address :=
  let target := callTarget address (instruction.1 + instruction.2.size) instruction.2.operand
  if instruction.2.mnemonic = .UD_Icall ∧ target ≠ 0 ∧ target ∉ callTargets then
    callTargets ++ [target]
  else callTargets

/-- The offset behind the return that a decoding has ended with. -/
def returnOffset (instructions : List (Nat × ScannedInstruction)) : DecodingEnd → Option Nat
  | .returned => instructions.getLast?.map fun last => last.1 + last.2.size
  | .undecodable | .exhausted => none

theorem returnOffset_cons {ud : Disassembler} {offset : Nat} {bytes : List Byte}
    {rest : List (Nat × ScannedInstruction)} {ending : DecodingEnd}
    (linear : Linear ud offset bytes rest ending) (first : Nat × ScannedInstruction) :
    returnOffset (first :: rest) ending = returnOffset rest ending := by
  cases ending with
  | undecodable => rfl
  | exhausted => rfl
  | returned =>
      rcases linear.exists_return with ⟨before, last, rfl, _⟩
      simp only [returnOffset, ← List.cons_append, List.getLast?_concat]

/-- The loop meets what linear decoding meets. -/
theorem decode_eq_of_linear {ud : Disassembler} {offset fuel : Nat} {bytes : List Byte}
    {instructions : List (Nat × ScannedInstruction)} {ending : DecodingEnd}
    (linear : Linear ud offset bytes instructions ending) (enough : bytes.length ≤ fuel)
    (address : Address) (callTargets : List Address) :
    decode ud address fuel bytes offset callTargets =
      ⟨instructions.foldl (recordTarget address) callTargets,
        returnOffset instructions ending⟩ := by
  induction linear generalizing fuel callTargets with
  | exhausted => cases fuel <;> rfl
  | undecodable more stuck =>
      rcases fuel with _ | fuel
      · rfl
      · simp only [decode, if_neg more, if_pos stuck]
        rfl
  | @returned offset bytes consumed ret =>
      have fits := ud.size_le bytes
      have more : bytes ≠ [] := by
        rintro rfl
        apply consumed
        exact Nat.le_zero.mp fits
      have nonempty := List.length_pos_iff.mpr more
      rcases fuel with _ | fuel
      · omega
      · have notCall : Mnemonic.UD_Iret ≠ .UD_Icall := by decide
        simp only [decode, if_neg more, if_neg consumed, ret, List.foldl_cons, List.foldl_nil,
          recordTarget, if_neg (not_and_of_not_left _ notCall)]
        rfl
  | @next offset bytes rest ending consumed going later ih =>
      have fits := ud.size_le bytes
      have more : bytes ≠ [] := by
        rintro rfl
        apply consumed
        exact Nat.le_zero.mp fits
      have nonempty := List.length_pos_iff.mpr more
      rcases fuel with _ | fuel
      · omega
      · have enoughLater : (bytes.drop (ud.disassemble bytes).size).length ≤ fuel := by
          rw [List.length_drop]
          omega
        simp only [List.foldl_cons, returnOffset_cons later, ← ih enoughLater]
        simp only [decode, if_neg more, if_neg consumed, recordTarget]
        cases mnemonic : (ud.disassemble bytes).mnemonic with
        | UD_Icall => simp only [true_and]
        | UD_Iret => exact absurd mnemonic going
        | other code =>
            have notCall : Mnemonic.other code ≠ .UD_Icall := by simp
            simp only [if_neg (not_and_of_not_left _ notCall)]

variable {input : ScanInput} {starts : List Address} {regions : List MDBCodeRegion}
  {address : Address} {instructions : List (Nat × ScannedInstruction)} {ending : DecodingEnd}

theorem procedure_eq_of_linear
    (linear : Linear input.ud 0 (input.buffer address) instructions ending) :
    input.procedure address =
      ⟨instructions.foldl (recordTarget address) [], returnOffset instructions ending⟩ :=
  decode_eq_of_linear linear (Nat.le_of_eq (length_buffer input address)) address []

/-- What can be read is decoded, with the patches of enabled breakpoints hidden. -/
theorem buffer_of_readable (readable : input.readable address = true) :
    input.buffer address = window input.state.view address bufferSize := by
  have small : ((List.range bufferSize).map (input.unusedBuffer address)).length < 2 ^ 31 := by
    simp [bufferSize]
  simp only [buffer, readable, BreakpointState.read_eq_window _ _ _ small]
  simp only [List.length_map, List.length_range]

/-! ## The regions -/

/-- A procedure is scanned by one of the calls that scanning the start addresses makes. -/
def Scanned (input : ScanInput) (starts : List Address) (address : Address) : Prop :=
  ∃ call, MadeAmong input.enter [] starts call ∧ getRegion call.1 call.2 = none ∧ call.2 = address

/-- A region ends behind the first return met by decoding linearly from its address. -/
def UpToReturn (input : ScanInput) (region : MDBCodeRegion) : Prop :=
  ∃ before offset ret,
    Linear input.ud 0 (window input.state.view region.address bufferSize)
      (before ++ [(offset, ret)]) .returned ∧
    ret.mnemonic = .UD_Iret ∧ (∀ earlier ∈ before, earlier.2.mnemonic ≠ .UD_Iret) ∧
    region.size = offset + ret.size

theorem upToReturn_of_region {region : MDBCodeRegion} (readable : input.readable address = true)
    (recorded : input.region address = some region) : input.UpToReturn region := by
  rcases Linear.exists_linear input.ud 0 (input.buffer address) with ⟨instructions, ending, linear⟩
  simp only [ScanInput.region, procedure_eq_of_linear linear, Option.map_eq_some_iff] at recorded
  rcases recorded with ⟨size, returns, rfl⟩
  cases ending with
  | undecodable => cases returns
  | exhausted => cases returns
  | returned =>
      rcases linear.exists_return with ⟨before, ⟨offset, ret⟩, rfl, isReturn, others⟩
      simp only [buffer_of_readable readable] at linear
      simp only [returnOffset, List.getLast?_concat, Option.map_some, Option.some.injEq] at returns
      exact ⟨before, offset, ret, linear, isReturn, others, returns.symm⟩

theorem region_eq_none_of_linear (linear : Linear input.ud 0 (input.buffer address) instructions
    ending) (noReturn : ending ≠ .returned) : input.region address = none := by
  simp only [ScanInput.region, procedure_eq_of_linear linear]
  cases ending with
  | undecodable => rfl
  | exhausted => rfl
  | returned => exact absurd rfl noReturn

/--
The regions that scanning records reach up to the first return from their addresses, have
different addresses, and none starts where decoding meets no return.
-/
theorem regions_upToReturn (input : ScanInput) (starts : List Address)
    (regions : List MDBCodeRegion)
    (readable : ∀ address, input.Scanned starts address → input.readable address = true)
    (path : Through input.Returns [] starts regions) :
    (∀ region ∈ regions, input.UpToReturn region) ∧
    (regions.map (·.address)).Nodup ∧
    ∀ address instructions ending, input.Scanned starts address →
      Linear input.ud 0 (window input.state.view address bufferSize) instructions ending →
        (ending = .undecodable ∨ ending = .exhausted) →
          ∀ region ∈ regions, region.address ≠ address := by
  refine ⟨?_, ?_, ?_⟩
  · intro region present
    rcases (mem_iff_exists_records path).mp present with ⟨call, records⟩
    apply upToReturn_of_region ?_ records.recorded
    exact readable call.2 ⟨call, records.made, records.fresh, rfl⟩
  · have sequence : Through (Traversal.Returns input.enter) [] starts regions := path
    rcases adds_of_evolves (sequence.evolves fun _ _ _ returned => returned.evolves) with
      ⟨new, adds⟩
    simp only [adds.appended, List.nil_append]
    exact adds.addresses
  · rintro _ instructions ending scanned linear noReturn region present rfl
    rcases (mem_iff_exists_records path).mp present with ⟨call, records⟩
    have same := (size_region records.recorded).1
    simp only [← buffer_of_readable (readable _ scanned)] at linear
    have notReturned : ending ≠ .returned := by
      rcases noReturn with rfl | rfl <;> decide
    have none := region_eq_none_of_linear linear notReturned
    simp only [same, records.recorded] at none
    cases none

theorem regions_upToReturn_fallThrough :
    (∀ region ∈ [innerRegion, outerRegion], (onlyMemory fallThrough).UpToReturn region) ∧
      ([innerRegion, outerRegion].map (·.address)).Nodup := by
  have regions := regions_upToReturn (onlyMemory fallThrough) _ _ (fun _ _ => rfl)
    through_inner_first
  exact ⟨regions.1, regions.2.1⟩

end ScanInput

end RustDbg
