import RustDbg.Code.Linear

/-!
# Call targets

The debugger computes the target of a near call in 64 bits, while the 32-bit processor it
scans the code of computes it modulo 2^32. The two agree as long as the sum of the address
of the next instruction and the operand does not leave the 32-bit addresses.
-/

namespace RustDbg

/-! ## What a 32-bit processor does -/

/-- A call with a 32-bit relative operand, and its offset. -/
def NearCall (instruction : Nat × ScannedInstruction) : Prop :=
  instruction.2.mnemonic = .UD_Icall ∧ instruction.2.operand.type = .UD_OP_JIMM ∧
    instruction.2.operand.size = 32

/-- The address of the instruction behind a call and the operand of the call, added up. -/
def callSum (address : Address) (call : Nat × ScannedInstruction) : Int :=
  address.toNat + (call.1 + call.2.size) + call.2.operand.sdword.toInt

/-- The address that a 32-bit processor transfers control to. -/
def transferTarget (address : Address) (call : Nat × ScannedInstruction) : Int :=
  callSum address call % 2 ^ 32

/-- The targets of the near calls met, each once. -/
structure ProcessorTargets (address : Address) (instructions : List (Nat × ScannedInstruction))
    (targets : List Address) : Prop where
  exact : ∀ n : Int, (∃ target ∈ targets, (target.toNat : Int) = n) ↔
    ∃ call ∈ instructions, NearCall call ∧ transferTarget address call = n
  below : ∀ target ∈ targets, target.toNat < 2 ^ 32
  once : targets.Pairwise fun first second => first.toNat % 2 ^ 32 ≠ second.toNat % 2 ^ 32

/-- The instructions met lie in the bytes that are decoded. -/
theorem Linear.inside {ud : Disassembler} {offset : Nat} {bytes : List Byte}
    {instructions : List (Nat × ScannedInstruction)} {ending : DecodingEnd}
    (linear : Linear ud offset bytes instructions ending) :
    ∀ instruction ∈ instructions,
      instruction.1 + instruction.2.size ≤ offset + bytes.length := by
  induction linear with
  | exhausted => simp
  | undecodable => simp
  | @returned offset bytes _ _ =>
      have fits := ud.size_le bytes
      simpa using fits
  | @next offset bytes _ _ _ _ _ ih =>
      have fits := ud.size_le bytes
      intro instruction present
      rcases List.mem_cons.mp present with rfl | later
      · simpa using fits
      · have bound := ih instruction later
        simp only [List.length_drop] at bound
        omega

namespace ScanInput

open Traversal

/-- The calls that scanning a procedure makes are to the targets of its near calls. -/
def FollowsCalls (input : ScanInput) (address : Address)
    (instructions : List (Nat × ScannedInstruction)) : Prop :=
  ∀ regions entered targets, input.enter regions address = some (entered, targets) →
    ProcessorTargets address instructions targets

variable {input : ScanInput} {address target : Address} {call : Nat × ScannedInstruction}
  {instructions : List (Nat × ScannedInstruction)} {ending : DecodingEnd}

theorem toNat_eq_zero_iff : target.toNat = 0 ↔ target = 0 := @BitVec.toNat_inj 64 target 0

/-! ## One call -/

theorem callTarget_of_not_nearCall (isCall : call.2.mnemonic = .UD_Icall) (far : ¬NearCall call) :
    callTarget address (call.1 + call.2.size) call.2.operand = 0 := by
  apply if_neg
  rintro ⟨relative, wide⟩
  exact far ⟨isCall, relative, wide⟩

theorem toNat_callTarget (address : Address) (near : NearCall call) :
    ((callTarget address (call.1 + call.2.size) call.2.operand).toNat : Int) =
      callSum address call % 2 ^ 64 := by
  simp only [callTarget, if_pos near.2]
  simp only [callSum, BitVec.signExtend, BitVec.toNat_add, BitVec.toNat_ofNat, BitVec.toNat_ofInt]
  omega

theorem toNat_callTarget_of_below (near : NearCall call)
    (below : 0 ≤ callSum address call ∧ callSum address call < 2 ^ 32) :
    ((callTarget address (call.1 + call.2.size) call.2.operand).toNat : Int) =
      transferTarget address call := by
  have same := toNat_callTarget address near
  simp only [transferTarget]
  omega

/-- The sum of a call leaves the 32-bit addresses exactly if its target does. -/
theorem callTarget_below_iff (low : address.toNat < 2 ^ 32) (near : NearCall call)
    (inside : call.1 + call.2.size ≤ bufferSize) :
    (callTarget address (call.1 + call.2.size) call.2.operand).toNat < 2 ^ 32 ↔
      0 ≤ callSum address call ∧ callSum address call < 2 ^ 32 := by
  have least := BitVec.le_toInt call.2.operand.sdword
  have greatest := @BitVec.toInt_lt _ call.2.operand.sdword
  have same := toNat_callTarget address near
  simp only [bufferSize] at inside
  simp only [callSum] at same ⊢
  omega

/-! ## All calls of a procedure -/

theorem mem_foldl_recordTarget {callTargets : List Address} :
    target ∈ instructions.foldl (recordTarget address) callTargets ↔
      target ∈ callTargets ∨ ∃ call ∈ instructions, call.2.mnemonic = .UD_Icall ∧
        target ≠ 0 ∧ callTarget address (call.1 + call.2.size) call.2.operand = target := by
  induction instructions generalizing callTargets with
  | nil => simp
  | cons first rest ih =>
      simp only [List.foldl_cons, ih, List.exists_mem_cons_iff, ← or_assoc]
      apply or_congr_left
      simp only [recordTarget]
      split
      · rename_i recorded
        rcases recorded with ⟨isCall, nonzero, _⟩
        simp only [List.mem_append, List.mem_singleton, isCall, true_and]
        apply or_congr_right
        constructor
        · rintro rfl
          exact ⟨nonzero, rfl⟩
        · rintro ⟨_, same⟩
          exact same.symm
      · rename_i kept
        simp only [iff_self_or]
        rintro ⟨isCall, nonzero, rfl⟩
        by_contra absent
        exact kept ⟨isCall, nonzero, absent⟩

theorem nodup_foldl_recordTarget {callTargets : List Address} (nodup : callTargets.Nodup) :
    (instructions.foldl (recordTarget address) callTargets).Nodup := by
  induction instructions generalizing callTargets with
  | nil => exact nodup
  | cons first rest ih =>
      apply ih
      simp only [recordTarget]
      split
      · rename_i recorded
        apply nodup.append (List.nodup_singleton _)
        simpa using recorded.2.2
      · exact nodup

/-- The targets recorded are those that the near calls are computed to have, but 0. -/
theorem mem_callTargets (linear : Linear input.ud 0 (input.buffer address) instructions ending) :
    target ∈ (input.procedure address).callTargets ↔ ∃ call ∈ instructions, NearCall call ∧
      target ≠ 0 ∧ callTarget address (call.1 + call.2.size) call.2.operand = target := by
  simp only [procedure_eq_of_linear linear, mem_foldl_recordTarget, List.not_mem_nil, false_or]
  apply exists_congr
  intro call
  apply and_congr_right
  intro _
  constructor
  · rintro ⟨isCall, nonzero, same⟩
    refine ⟨?_, nonzero, same⟩
    by_contra far
    apply nonzero
    simp only [← same, callTarget_of_not_nearCall isCall far]
  · rintro ⟨near, nonzero, same⟩
    exact ⟨near.1, nonzero, same⟩

theorem followsCalls_iff_callTargets : input.FollowsCalls address instructions ↔
    ProcessorTargets address instructions (input.procedure address).callTargets := by
  constructor
  · intro follows
    apply follows [] ([] ++ (input.region address).toList)
    apply enter_eq_some_iff.mpr
    exact ⟨rfl, rfl, rfl⟩
  · intro exact regions entered targets enters
    rcases enter_eq_some_iff.mp enters with ⟨_, _, rfl⟩
    exact exact

section Procedure

variable (linear : Linear input.ud 0 (input.buffer address) instructions ending)

include linear

/-- A near call whose target is recorded as the processor computes it has a sum in between. -/
theorem callSum_of_processorTargets (low : address.toNat < 2 ^ 32)
    (exact : ProcessorTargets address instructions (input.procedure address).callTargets)
    (present : call ∈ instructions) (near : NearCall call) :
    0 < callSum address call ∧ callSum address call < 2 ^ 32 := by
  have inside := linear.inside call present
  simp only [length_buffer, Nat.zero_add] at inside
  have same := toNat_callTarget address near
  by_cases zero : callTarget address (call.1 + call.2.size) call.2.operand = 0
  · -- The processor goes to 0, which is not recorded.
    exfalso
    have below := (callTarget_below_iff low near inside).mp (by simp [zero])
    have goes := toNat_callTarget_of_below near below
    rcases (exact.exact _).mpr ⟨call, present, near, rfl⟩ with ⟨target, recorded, target_eq⟩
    rcases (mem_callTargets linear).mp recorded with ⟨_, _, _, nonzero, _⟩
    apply nonzero
    simp only [← goes, toNat_eq_zero_iff.mpr zero] at target_eq
    apply toNat_eq_zero_iff.mp
    exact Int.ofNat_inj.mp target_eq
  · have recorded := (mem_callTargets linear).mpr ⟨call, present, near, zero, rfl⟩
    have below := (callTarget_below_iff low near inside).mp (exact.below _ recorded)
    refine ⟨?_, below.2⟩
    have nonzero : (callTarget address (call.1 + call.2.size) call.2.operand).toNat ≠ 0 :=
      zero ∘ toNat_eq_zero_iff.mp
    omega

theorem processorTargets_of_callSum (between : ∀ call ∈ instructions, NearCall call →
    0 < callSum address call ∧ callSum address call < 2 ^ 32) :
    ProcessorTargets address instructions (input.procedure address).callTargets := by
  have goes : ∀ call ∈ instructions, NearCall call →
      ((callTarget address (call.1 + call.2.size) call.2.operand).toNat : Int) =
        transferTarget address call := by
    intro call present near
    have bounds := between call present near
    exact toNat_callTarget_of_below near ⟨Int.le_of_lt bounds.1, bounds.2⟩
  have below : ∀ target ∈ (input.procedure address).callTargets, target.toNat < 2 ^ 32 := by
    intro target recorded
    rcases (mem_callTargets linear).mp recorded with ⟨call, present, near, _, rfl⟩
    have target_eq := goes call present near
    simp only [transferTarget] at target_eq
    omega
  refine ⟨?_, below, ?_⟩
  · intro n
    constructor
    · rintro ⟨target, recorded, rfl⟩
      rcases (mem_callTargets linear).mp recorded with ⟨call, present, near, _, rfl⟩
      exact ⟨call, present, near, (goes call present near).symm⟩
    · rintro ⟨call, present, near, rfl⟩
      have target_eq := goes call present near
      refine ⟨_, (mem_callTargets linear).mpr ⟨call, present, near, ?_, rfl⟩, target_eq⟩
      intro zero
      have bounds := between call present near
      simp only [toNat_eq_zero_iff.mpr zero, transferTarget] at target_eq
      omega
  · have nodup : (input.procedure address).callTargets.Nodup := by
      rw [procedure_eq_of_linear linear]
      exact nodup_foldl_recordTarget List.nodup_nil
    apply nodup.imp_of_mem
    intro first second firstMem secondMem different same
    rw [Nat.mod_eq_of_lt (below first firstMem), Nat.mod_eq_of_lt (below second secondMem)] at same
    apply different
    exact BitVec.eq_of_toNat_eq same

end Procedure

/--
For a procedure below 4 GiB the scanner goes on with the addresses to which a 32-bit
processor transfers control, each once, exactly if no sum of the address of the next
instruction and the operand of a near call leaves the addresses from 1 to 2^32 - 1.
-/
theorem followsCalls_iff (input : ScanInput) (address : Address) (low : address.toNat < 2 ^ 32) :
    ∃ instructions ending, Linear input.ud 0 (input.buffer address) instructions ending ∧
      (input.FollowsCalls address instructions ↔ ∀ call ∈ instructions, NearCall call →
        0 < callSum address call ∧ callSum address call < 2 ^ 32) := by
  rcases Linear.exists_linear input.ud 0 (input.buffer address) with ⟨instructions, ending, linear⟩
  refine ⟨instructions, ending, linear, ?_⟩
  rw [followsCalls_iff_callTargets]
  constructor
  · intro exact call present near
    exact callSum_of_processorTargets linear low exact present near
  · exact processorTargets_of_callSum linear

/-- `call 0xFFFFF005; ret` at 0x1000, into the page that a 32-bit process shares with the kernel. -/
def callsCommPage : Memory :=
  store (fun _ => 0#8) 0x1000#64 [0xE8#8, 0x00#8, 0xE0#8, 0xFF#8, 0xFF#8, 0xC3#8]

theorem procedure_callsCommPage :
    (onlyMemory callsCommPage).procedure 0x1000#64 = ⟨[0xFFFFFFFFFFFFF005#64], some 6⟩ := by
  decide +kernel

/-- The call target is recorded above 4 GiB. -/
theorem not_followsCalls_callsCommPage :
    ((onlyMemory callsCommPage).procedure 0x1000#64).callTargets = [0xFFFFFFFFFFFFF005#64] ∧
    ∀ instructions ending, Linear (onlyMemory callsCommPage).ud 0
        ((onlyMemory callsCommPage).buffer 0x1000#64) instructions ending →
      ¬(onlyMemory callsCommPage).FollowsCalls 0x1000#64 instructions := by
  refine ⟨by rw [procedure_callsCommPage], ?_⟩
  intro instructions ending _ follows
  have targets := followsCalls_iff_callTargets.mp follows
  simp only [procedure_callsCommPage] at targets
  apply absurd (targets.below _ (List.mem_singleton_self _))
  decide

theorem followsCalls_iff_callsCommPage : ∃ instructions ending,
    Linear (onlyMemory callsCommPage).ud 0 ((onlyMemory callsCommPage).buffer 0x1000#64)
      instructions ending ∧
    ((onlyMemory callsCommPage).FollowsCalls 0x1000#64 instructions ↔
      ∀ call ∈ instructions, NearCall call →
        0 < callSum 0x1000#64 call ∧ callSum 0x1000#64 call < 2 ^ 32) :=
  followsCalls_iff _ 0x1000#64 (by decide)

end ScanInput

end RustDbg
