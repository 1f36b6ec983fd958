import RustDbg.Breakpoint.Placed
import RustDbg.Debugger.Session

/-!
# Inspecting an instruction

`MDBCode::isCallInstruction` and `getInstructionLength` read 32 bytes, more than any
instruction has, and decode their buffer also when the read has failed. At the end of a
mapping the read fails although the instruction is there, and only patches that the
debugger hides by itself put bytes of the instruction into the buffer.
-/

namespace RustDbg

/-- Where a decoder consumes all bytes, the result does not depend on what follows them. -/
def DependsOnInstruction (ud : Udis86) : Prop :=
  ∀ instruction rest, instruction ≠ [] → (ud instruction).size = instruction.length →
    ud (instruction ++ rest) = ud instruction

/-- The bytes of the target that are mapped, and readable, from an address on. -/
def MappedFrom (mapped : Address → Bool) (address : Address) (size : Nat) : Prop :=
  ∀ i < size, mapped (address + BitVec.ofNat 64 i) = true

theorem MappedFrom.mono {mapped : Address → Bool} {address : Address} {size more : Nat}
    (mapsMore : MappedFrom mapped address more) (fewer : size ≤ more) :
    MappedFrom mapped address size := by
  intro i inside
  apply mapsMore i
  omega

/-- An instruction of some size is at an address, and mapped; none has more than 15 bytes. -/
structure WholeInstruction (ud : Udis86) (mapped : Address → Bool) (original : Memory)
    (address : Address) (size : Nat) : Prop where
  nonempty : 0 < size
  short : size ≤ 15
  decoded : (ud (window original address size)).size = size
  mapped : MappedFrom mapped address size

namespace Session

variable {session : Session} {ud : Udis86} {mapped : Address → Bool} {original : Memory}
  {address : Address} {size : Nat}

/-- The next memory access is a read that succeeds if all of the 32 bytes are mapped. -/
def ReadsWindow (session : Session) (mapped : Address → Bool) (address : Address) : Prop :=
  session.nextAccess.1.readOk = true ↔ MappedFrom mapped address 32

/--
What is said of an instruction that is there is what a decoder says of its original
bytes, whatever the buffer holds if it cannot be read into.
-/
def Inspects (session : Session) (mapped : Address → Bool) (original : Memory)
    (address : Address) : Prop :=
  ∀ ud size unusedBuffer, DependsOnInstruction ud →
    WholeInstruction ud mapped original address size →
      (({ session with unusedBuffer }.isCallInstruction ud address).1 = true ↔
        (ud (window original address size)).mnemonic = .UD_Icall) ∧
      ({ session with unusedBuffer }.getInstructionLength ud address).1 =
        (ud (window original address size)).size

/-! ## What is decoded -/

/-- The target memory, or what the buffer for an address holds if it cannot be read into. -/
def underlying (session : Session) (address : Address) : Memory :=
  if session.nextAccess.1.readOk then session.target.memory
  else fun other => session.unusedBuffer address (other - address).toNat

theorem decodeAt_eq (session : Session) (ud : Udis86) (address : Address) :
    (session.decodeAt ud address).1 = ud (window (Overlay.overlay (session.underlying address)
      (BreakpointState.sites session.breakpoints)) address 32) := by
  have unused : (List.range 32).map (session.nextAccess.2.unusedBuffer address) =
      window (fun other => session.unusedBuffer address (other - address).toNat) address 32 := by
    apply List.map_congr_left
    intro i present
    have small : i < 2 ^ 64 := by
      have := List.mem_range.mp present
      omega
    simp only [← (BreakpointState.window_address_eq_iff small).mp rfl]
    rfl
  have small : 32 < 2 ^ 31 := by omega
  rw [← BreakpointState.foldl_hidePatch_window small]
  simp only [decodeAt, underlying, BreakpointState.read, machVmReadOverwrite, unused, length_window]
  cases session.nextAccess.1.readOk <;> rfl

theorem inspects_iff_decodeAt : session.Inspects mapped original address ↔
    ∀ ud size unusedBuffer, DependsOnInstruction ud →
      WholeInstruction ud mapped original address size →
        (({ session with unusedBuffer }.decodeAt ud address).1.mnemonic = .UD_Icall ↔
          (ud (window original address size)).mnemonic = .UD_Icall) ∧
        ({ session with unusedBuffer }.decodeAt ud address).1.size =
          (ud (window original address size)).size := by
  simp only [Inspects, isCallInstruction, getInstructionLength, decide_eq_true_eq]

/-- A decoder says of a window what it says of the instruction that the window starts with. -/
theorem decode_window (depends : DependsOnInstruction ud) {memory : Memory}
    (whole : WholeInstruction ud mapped original address size)
    (same : ∀ i < size, memory (address + BitVec.ofNat 64 i) =
      original (address + BitVec.ofNat 64 i)) :
    ud (window memory address 32) = ud (window original address size) := by
  have short := whole.short
  have nonempty : window original address size ≠ [] := by
    apply List.length_pos_iff.mp
    rw [length_window]
    exact whole.nonempty
  have start : (window memory address 32).take size = window original address size := by
    apply List.ext_getElem
    · simp only [List.length_take, length_window]
      omega
    · intro i bound _
      simp only [List.length_take, length_window] at bound
      simp only [List.getElem_take, getElem_window]
      apply same i
      omega
  rw [← List.take_append_drop size (window memory address 32), start]
  apply depends _ _ nonempty
  simp only [whole.decoded, length_window]

/-- Decodes some given bytes as a call, and any other ones of their length as something else. -/
def decodesOnly (expected : List Byte) : Udis86 := fun bytes =>
  if bytes.take expected.length = expected then ⟨expected.length, .UD_Icall⟩
  else if expected.length ≤ bytes.length then ⟨expected.length, .other 0⟩
  else ⟨0, .other 0⟩

theorem dependsOnInstruction_decodesOnly (expected : List Byte) :
    DependsOnInstruction (decodesOnly expected) := by
  intro instruction rest nonempty consumed
  have positive := List.length_pos_iff.mpr nonempty
  have start (same : expected.length = instruction.length) :
      (instruction ++ rest).take expected.length = instruction.take expected.length := by
    simp only [same, List.take_left, List.take_length]
  have longer : instruction.length ≤ (instruction ++ rest).length := by simp
  simp only [decodesOnly] at consumed ⊢
  split at consumed
  · rename_i isExpected
    rw [start consumed, if_pos isExpected, if_pos isExpected]
  · rename_i different
    split at consumed
    · rename_i fits
      rw [start consumed, if_neg different, if_neg different, if_pos fits,
        if_pos (Nat.le_trans fits longer)]
    · apply absurd consumed
      exact Nat.ne_of_lt positive

/-! ## When the read is enough -/

section Hidden

variable (hidden : BreakpointState.Hidden original session.breakpointState)

include hidden

/-- Saved bytes are original ones, over the target memory and over any other. -/
theorem overlay_of_enabledAt {raw : Memory}
    (enabledAt : session.breakpointState.EnabledAt address) :
    Overlay.overlay raw (BreakpointState.sites session.breakpoints) address =
      original address := by
  rcases (BreakpointState.enabledAt_iff hidden.noTransient).mp enabledAt with
    ⟨index, breakpoint, present, enabled, rfl⟩
  apply Overlay.overlay_apply_eq
  · intro site siteMem here
    simp only [hidden.sound.saved_original site siteMem, here]
  · right
    have mem := List.mem_of_getElem? present
    exact ⟨_, BreakpointState.mem_sites.mpr ⟨breakpoint, mem, enabled, rfl⟩, rfl⟩

theorem overlay_of_not_enabledAt {raw : Memory}
    (unpatched : ¬session.breakpointState.EnabledAt address) :
    Overlay.overlay raw (BreakpointState.sites session.breakpoints) address = raw address := by
  apply Overlay.overlay_apply_eq
  · intro site siteMem here
    rcases BreakpointState.mem_sites.mp siteMem with ⟨breakpoint, mem, enabled, rfl⟩
    rcases List.getElem?_of_mem mem with ⟨index, present⟩
    apply absurd ((BreakpointState.enabledAt_iff hidden.noTransient).mpr
      ⟨index, breakpoint, present, enabled, here⟩)
    exact unpatched
  · exact Or.inl rfl

/-- A whole instruction is decoded right where the buffer has its bytes. -/
theorem decodeAt_of_bytes (depends : DependsOnInstruction ud)
    (whole : WholeInstruction ud mapped original address size)
    (enough : session.nextAccess.1.readOk = true ∨
      ∀ i < size, session.breakpointState.EnabledAt (address + BitVec.ofNat 64 i)) :
    (session.decodeAt ud address).1 = ud (window original address size) := by
  rw [decodeAt_eq]
  apply decode_window depends whole
  intro i inside
  rcases enough with readOk | covered
  · have view : session.breakpointState.view = original := hidden.view_eq
    simp only [underlying, readOk, if_true]
    exact congrFun view _
  · apply overlay_of_enabledAt hidden
    exact covered i inside

/-! ## When it is not -/

/-- Any content of the buffer decides about a mapped byte that is neither read nor patched. -/
theorem not_inspects_of_unpatched {offset : Nat} (short : offset < 15)
    (mapsUpTo : MappedFrom mapped address (offset + 1))
    (unpatched : ¬session.breakpointState.EnabledAt (address + BitVec.ofNat 64 offset))
    (fails : session.nextAccess.1.readOk = false) :
    ¬session.Inspects mapped original address := by
  intro inspects
  let expected := window original address (offset + 1)
  have length_expected : expected.length = offset + 1 := length_window _ _ _
  have own : decodesOnly expected expected = ⟨offset + 1, .UD_Icall⟩ := by
    rw [← length_expected]
    simp only [decodesOnly, List.take_length, if_true]
  have whole : WholeInstruction (decodesOnly expected) mapped original address (offset + 1) :=
    ⟨Nat.succ_pos _, by omega, congrArg DecodedInstruction.size own, mapsUpTo⟩
  -- The buffer holds another byte at the offset.
  let unusedBuffer : Address → Nat → Byte := fun _ _ =>
    original (address + BitVec.ofNat 64 offset) + 1#8
  have decoded := (inspects_iff_decodeAt.mp inspects (decodesOnly expected) (offset + 1)
    unusedBuffer (dependsOnInstruction_decodesOnly expected) whole).1.mpr (by rw [own])
  simp only [decodeAt_eq, decodesOnly, length_expected] at decoded
  split at decoded
  · rename_i same
    have bytes := congrArg (·[offset]?) same
    simp only [List.getElem?_take_of_lt (Nat.lt_succ_self offset), expected,
      getElem?_window _ _ (Nat.lt_succ_self offset),
      getElem?_window _ _ (show offset < 32 by omega), Option.some.injEq] at bytes
    have stale : BreakpointState.Hidden original
        ({ session with unusedBuffer } : Session).breakpointState := hidden
    have failsToo : ({ session with unusedBuffer } : Session).nextAccess.1.readOk = false := fails
    simp only [overlay_of_not_enabledAt stale unpatched] at bytes
    simp only [underlying, failsToo, Bool.false_eq_true, if_false] at bytes
    have different : ∀ byte : Byte, byte + 1#8 ≠ byte := by
      intro byte
      bv_omega
    exact different _ bytes
  · split at decoded <;> cases decoded

end Hidden

/--
An instruction is inspected right exactly if the 32 bytes from its address on are mapped,
or each of the first 15 up to which the target is mapped is under an enabled breakpoint.
-/
theorem inspects_iff (session : Session) (mapped : Address → Bool) (original : Memory)
    (address : Address) (hidden : BreakpointState.Hidden original session.breakpointState)
    (reads : session.ReadsWindow mapped address) :
    session.Inspects mapped original address ↔ MappedFrom mapped address 32 ∨
      ∀ offset < 15, MappedFrom mapped address (offset + 1) →
        session.breakpointState.EnabledAt (address + BitVec.ofNat 64 offset) := by
  constructor
  · intro inspects
    by_cases window : MappedFrom mapped address 32
    · exact Or.inl window
    · right
      intro offset short mapsUpTo
      by_contra unpatched
      have fails : session.nextAccess.1.readOk = false := by
        simpa using window ∘ reads.mp
      exact not_inspects_of_unpatched hidden short mapsUpTo unpatched fails inspects
  · intro enough
    apply inspects_iff_decodeAt.mpr
    intro ud size unusedBuffer depends whole
    have stale : BreakpointState.Hidden original
        ({ session with unusedBuffer } : Session).breakpointState := hidden
    have decoded : ({ session with unusedBuffer }.decodeAt ud address).1 =
        ud (window original address size) := by
      apply decodeAt_of_bytes stale depends whole
      rcases enough with window | covered
      · apply Or.inl
        exact reads.mpr window
      · right
        intro i inside
        have short := whole.short
        apply covered i (by omega)
        exact MappedFrom.mono whole.mapped (by omega)
    rw [decoded]
    exact ⟨Iff.rfl, rfl⟩

/-! ## The last byte of a mapping -/

/-- A `ret` at 0x1FFF, where the mapping ends, and a session in which 32 bytes are read there. -/
def lastByteMapped (address : Address) : Bool := 0x1000 ≤ address.toNat ∧ address.toNat < 0x2000

def retEverywhere : Memory := fun _ => 0xC3#8

def beforeUnmapped : Session :=
  { Session.attached
      { memory := retEverywhere
        live := []
        thread _ := default
        suspendCount := 1
        pidKnown := true } [] with
    accesses := [⟨false, false, false, false⟩] }

/-- Decodes near calls and returns. -/
def callOrRet : Udis86
  | 0xE8#8 :: _ :: _ :: _ :: _ :: _ => ⟨5, .UD_Icall⟩
  | 0xC3#8 :: _ => ⟨1, .UD_Iret⟩
  | _ => ⟨0, .other 0⟩

theorem dependsOnInstruction_callOrRet : DependsOnInstruction callOrRet := by
  intro instruction rest nonempty consumed
  unfold callOrRet at consumed
  split at consumed
  · rfl
  · rfl
  · apply absurd consumed
    exact Nat.ne_of_lt (List.length_pos_iff.mpr nonempty)

theorem not_mappedFrom_lastByte : ¬MappedFrom lastByteMapped 0x1FFF#64 32 := by
  intro window
  apply absurd (window 1 (by omega))
  decide

theorem reads_lastByte : beforeUnmapped.ReadsWindow lastByteMapped 0x1FFF#64 := by
  constructor
  · intro readOk
    cases readOk
  · intro window
    exact absurd window not_mappedFrom_lastByte

theorem wholeInstruction_lastByte :
    WholeInstruction callOrRet lastByteMapped retEverywhere 0x1FFF#64 1 := by
  refine ⟨Nat.zero_lt_one, by omega, rfl, ?_⟩
  intro i inside
  rw [Nat.lt_one_iff.mp inside]
  decide

/-- What the buffer held before is decoded instead of the `ret`. -/
theorem not_inspects_lastByte :
    BreakpointState.Hidden retEverywhere beforeUnmapped.breakpointState ∧
      beforeUnmapped.ReadsWindow lastByteMapped 0x1FFF#64 ∧
      DependsOnInstruction callOrRet ∧
      WholeInstruction callOrRet lastByteMapped retEverywhere 0x1FFF#64 1 ∧
      ¬beforeUnmapped.Inspects lastByteMapped retEverywhere 0x1FFF#64 := by
  refine ⟨BreakpointState.hidden_initial _, reads_lastByte, dependsOnInstruction_callOrRet,
    wholeInstruction_lastByte, ?_⟩
  intro inspects
  have both := inspects callOrRet 1 (fun _ _ => 0xE8#8) dependsOnInstruction_callOrRet
    wholeInstruction_lastByte
  apply absurd both.2
  decide

theorem inspects_iff_lastByte :
    beforeUnmapped.Inspects lastByteMapped retEverywhere 0x1FFF#64 ↔
      MappedFrom lastByteMapped 0x1FFF#64 32 ∨
        ∀ offset < 15, MappedFrom lastByteMapped 0x1FFF#64 (offset + 1) →
          beforeUnmapped.breakpointState.EnabledAt (0x1FFF#64 + BitVec.ofNat 64 offset) :=
  inspects_iff _ _ _ _ (BreakpointState.hidden_initial _) reads_lastByte

end Session

end RustDbg
