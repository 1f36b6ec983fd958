import RustDbg.Code.Region
import RustDbg.Library.Hexadecimal
import RustDbg.Library.Loop
import RustDbg.Shared.Strings

/-!
# The listing of a region

`MDBCodeRegion::disassemble` writes a line for each instruction of a region. It does not
look at the size of the buffer, and it prints offsets after converting them to `int`.
-/

namespace RustDbg

open Loop Hexadecimal

/-- An instruction with the texts of `ud_insn_hex` and `ud_insn_asm`. -/
structure ListedInstruction where
  size : Nat
  hex : List Byte
  asm : List Byte
deriving DecidableEq, Repr

/-- `ud_disassemble` at a position of an input buffer, of which it consumes at least a byte. -/
structure ListingDecoder where
  disassemble : List Byte → Nat → ListedInstruction
  consumes : ∀ bytes position, position < bytes.length →
    1 ≤ (disassemble bytes position).size ∧
      position + (disassemble bytes position).size ≤ bytes.length

/-- `%-16s` -/
def padded (text : List Byte) : List Byte :=
  text ++ List.replicate (16 - text.length) 0x20#8

/-- `"0x%llx: %-16s %s\n"` -/
def listingLine (address : Address) (insn : ListedInstruction) : List Byte :=
  [0x30#8, 0x78#8] ++ digits address.toNat ++ 0x3a#8 :: 0x20#8 :: padded insn.hex ++
    0x20#8 :: insn.asm ++ [0x0a#8]

/-- `int pc = ud_obj.pc`, added to an address. -/
def addressAtInt (address : Address) (position : Nat) : Address :=
  address + (BitVec.ofNat 32 position).signExtend 64

/-- The variables of the loop. -/
structure Disassembly where
  /-- `ud_obj.pc` -/
  position : Nat
  remainingBytes : BitVec 32
  /-- The text that is in the buffer. -/
  buffer : List Byte
deriving DecidableEq, Repr

namespace MDBCodeRegion

/-- Before the loop, with the buffer empty. -/
def startDisassembly (region : MDBCodeRegion) : Disassembly :=
  ⟨0, BitVec.ofNat 32 region.size, []⟩

/-- An iteration of `MDBCodeRegion::disassemble` over the bytes that were read. -/
def disassembleBody (region : MDBCodeRegion) (decoder : ListingDecoder) (bytes : List Byte)
    (state : Disassembly) : Iteration Disassembly (List Byte) :=
  let insn := decoder.disassemble bytes state.position
  let remainingBytes := state.remainingBytes - BitVec.ofNat 32 insn.size
  let buffer := appendString state.buffer
    (listingLine (addressAtInt region.address state.position) insn)
  if 0#32 < remainingBytes then .goesOn ⟨state.position + insn.size, remainingBytes, buffer⟩
  else .leaves buffer

end MDBCodeRegion

/-! ## The instructions of a region -/

/-- The positions of the instructions from one position to the end of the bytes. -/
inductive Covers (decoder : ListingDecoder) (bytes : List Byte) : Nat → List Nat → Prop where
  | ended : Covers decoder bytes bytes.length []
  | insn {position : Nat} {later : List Nat} (inside : position < bytes.length)
      (rest : Covers decoder bytes (position + (decoder.disassemble bytes position).size) later) :
      Covers decoder bytes position (position :: later)

/-- The lines for some positions, with the addresses computed in a way. -/
def listing (decoder : ListingDecoder) (bytes : List Byte) (addressOf : Nat → Address)
    (positions : List Nat) : List Byte :=
  positions.flatMap fun position =>
    listingLine (addressOf position) (decoder.disassemble bytes position)

/-- The whole region is listed as far as the text and its terminator fit in the buffer. -/
def ListsRegion (decoder : ListingDecoder) (region : MDBCodeRegion) (bytes : List Byte)
    (bufferSize : Nat) (text : List Byte) : Prop :=
  ∃ positions, Covers decoder bytes 0 positions ∧
    text = (listing decoder bytes (fun position => region.address + BitVec.ofNat 64 position)
      positions).take (bufferSize - 1) ∧
    text.length + 1 ≤ bufferSize

/-- How many characters a line has. -/
def lineLength (address : Address) (insn : ListedInstruction) : Nat :=
  6 + (digits address.toNat).length + max 16 insn.hex.length + insn.asm.length

/-- The lines fit in the buffer, and no instruction starts from 2^31 on. -/
def ListingFits (decoder : ListingDecoder) (region : MDBCodeRegion) (bytes : List Byte)
    (bufferSize : Nat) : Prop :=
  ∃ positions, Covers decoder bytes 0 positions ∧ (∀ position ∈ positions, position < 2 ^ 31) ∧
    (positions.map fun position => lineLength (region.address + BitVec.ofNat 64 position)
      (decoder.disassemble bytes position)).sum + 1 ≤ bufferSize

variable {decoder : ListingDecoder} {region : MDBCodeRegion} {bytes text : List Byte}
  {position bufferSize : Nat} {positions : List Nat}

namespace Covers

theorem exists_covers (decoder : ListingDecoder) (inside : position ≤ bytes.length) :
    ∃ positions, Covers decoder bytes position positions := by
  induction left : bytes.length - position using Nat.strong_induction_on generalizing position with
  | _ _ ih =>
      rcases Nat.lt_or_eq_of_le inside with more | rfl
      · have consumed := decoder.consumes bytes position more
        rcases ih _ (by omega) consumed.2 rfl with ⟨later, rest⟩
        exact ⟨position :: later, .insn more rest⟩
      · exact ⟨[], .ended⟩

theorem unique {other : List Nat} (covers : Covers decoder bytes position positions)
    (again : Covers decoder bytes position other) : other = positions := by
  induction covers generalizing other with
  | ended =>
      cases again with
      | ended => rfl
      | insn inside _ => exact absurd inside (Nat.lt_irrefl _)
  | insn inside _ ih =>
      cases again with
      | ended => exact absurd inside (Nat.lt_irrefl _)
      | insn _ rest => rw [ih rest]

theorem lt_length (covers : Covers decoder bytes position positions) :
    ∀ position ∈ positions, position < bytes.length := by
  induction covers with
  | ended => simp
  | insn inside _ ih =>
      intro position present
      rcases List.mem_cons.mp present with rfl | later
      · exact inside
      · exact ih position later

end Covers

/-! ## The lines -/

theorem length_listingLine (address : Address) (insn : ListedInstruction) :
    (listingLine address insn).length = lineLength address insn := by
  simp only [listingLine, padded, lineLength, List.length_append, List.length_cons,
    List.length_nil, List.length_replicate]
  omega

theorem length_listing (addressOf : Nat → Address) (positions : List Nat) :
    (listing decoder bytes addressOf positions).length =
      (positions.map fun position =>
        lineLength (addressOf position) (decoder.disassemble bytes position)).sum := by
  simp only [listing, List.length_flatMap, length_listingLine]

/-- The address of an instruction is right as long as its offset is an `int`. -/
theorem addressAtInt_eq_iff {address : Address} (small : position < 2 ^ 32) :
    addressAtInt address position = address + BitVec.ofNat 64 position ↔ position < 2 ^ 31 := by
  rw [addressAtInt, BitVec.add_right_inj, ← BitVec.toNat_inj, BitVec.toNat_signExtend,
    BitVec.msb_eq_decide, BitVec.toNat_setWidth, BitVec.toNat_ofNat, BitVec.toNat_ofNat]
  by_cases low : position < 2 ^ 31
  · have notNegative : decide (2 ^ (32 - 1) ≤ position % 2 ^ 32) = false := by
      rw [decide_eq_false_iff_not]
      omega
    simp only [notNegative, if_neg Bool.false_ne_true]
    omega
  · have negative : decide (2 ^ (32 - 1) ≤ position % 2 ^ 32) = true := by
      rw [decide_eq_true_iff]
      omega
    rw [negative, if_pos rfl]
    omega

theorem noDigit_colon : NoDigit 0x3a#8 := by
  unfold NoDigit
  decide

/-- A text that starts with the line of an instruction tells its address. -/
theorem listingLine_append_inj {address other : Address} {insn : ListedInstruction}
    {rest otherRest : List Byte}
    (same : listingLine address insn ++ rest = listingLine other insn ++ otherRest) :
    address = other ∧ rest = otherRest := by
  simp only [listingLine, List.append_assoc, List.cons_append, List.nil_append,
    List.cons.injEq, true_and] at same
  rcases digits_append_inj noDigit_colon same with ⟨addresses, rests⟩
  refine ⟨BitVec.eq_of_toNat_eq addresses, ?_⟩
  simpa using rests

theorem listing_eq {address : Address} (small : ∀ position ∈ positions, position < 2 ^ 31) :
    listing decoder bytes (addressAtInt address) positions =
      listing decoder bytes (fun position => address + BitVec.ofNat 64 position) positions := by
  apply List.flatMap_congr
  intro position present
  have isSmall := small position present
  rw [(addressAtInt_eq_iff (by omega)).mpr isSmall]

/-- A listing with a wrong address is not a part of the right one. -/
theorem lt_of_listing_prefix {address : Address}
    (small : ∀ position ∈ positions, position < 2 ^ 32)
    (part : listing decoder bytes (addressAtInt address) positions <+:
      listing decoder bytes (fun position => address + BitVec.ofNat 64 position) positions) :
    ∀ position ∈ positions, position < 2 ^ 31 := by
  induction positions with
  | nil => simp
  | cons first later ih =>
      rcases part with ⟨spare, same⟩
      simp only [listing, List.flatMap_cons, List.append_assoc] at same
      rcases listingLine_append_inj same with ⟨addresses, rests⟩
      have isSmall := (addressAtInt_eq_iff (small first List.mem_cons_self)).mp addresses
      have others := ih (fun position present => small position (List.mem_cons_of_mem _ present))
        ⟨spare, rests⟩
      intro position present
      rcases List.mem_cons.mp present with rfl | isLater
      · exact isSmall
      · exact others position isLater

/-! ## The loop -/

theorem leaves_iff_of_covers (covers : Covers decoder bytes position positions)
    (inside : position < bytes.length) (small : bytes.length < 2 ^ 32) (buffer : List Byte) :
    Leaves (region.disassembleBody decoder bytes)
        ⟨position, BitVec.ofNat 32 (bytes.length - position), buffer⟩ text ↔
      text = buffer ++ listing decoder bytes (addressAtInt region.address) positions := by
  induction covers generalizing buffer with
  | ended => exact absurd inside (Nat.lt_irrefl _)
  | @insn position later _ rest ih =>
      have consumed := decoder.consumes bytes position inside
      have remaining_eq : BitVec.ofNat 32 (bytes.length - position) -
          BitVec.ofNat 32 (decoder.disassemble bytes position).size =
            BitVec.ofNat 32 (bytes.length -
              (position + (decoder.disassemble bytes position).size)) := by
        apply BitVec.eq_of_toNat_eq
        simp only [BitVec.toNat_sub, BitVec.toNat_ofNat]
        omega
      have going : 0#32 < BitVec.ofNat 32 (bytes.length -
          (position + (decoder.disassemble bytes position).size)) ↔
            position + (decoder.disassemble bytes position).size < bytes.length := by
        simp only [BitVec.lt_def, BitVec.toNat_ofNat]
        omega
      rcases Nat.lt_or_eq_of_le consumed.2 with more | last
      · have body : region.disassembleBody decoder bytes ⟨position, _, buffer⟩ = .goesOn _ :=
          if_pos (by rw [remaining_eq]; exact going.mpr more)
        simp only [leaves_iff_of_goesOn body, remaining_eq, ih more]
        simp only [appendString, listing, List.flatMap_cons, List.append_assoc]
      · have body : region.disassembleBody decoder bytes ⟨position, _, buffer⟩ = .leaves _ :=
          if_neg (by rw [remaining_eq, going]; omega)
        simp only [last] at rest
        have nothing : later = [] := Covers.ended.unique rest
        simp only [leaves_iff_of_leaves body, nothing]
        simp only [appendString, listing, List.flatMap_cons, List.flatMap_nil, List.append_nil]

theorem leaves_iff (covers : Covers decoder bytes 0 positions) (loaded : bytes.length = region.size)
    (nonempty : 1 ≤ region.size) (small : region.size < 2 ^ 32) :
    Leaves (region.disassembleBody decoder bytes) region.startDisassembly text ↔
      text = listing decoder bytes (addressAtInt region.address) positions := by
  simp only [← loaded] at nonempty small
  have loop := @leaves_iff_of_covers decoder region bytes text 0 positions covers nonempty small []
  simp only [Nat.sub_zero, loaded] at loop
  exact loop

/--
The disassembly ends with the whole region listed inside the buffer exactly if all the lines fit
in the buffer, for it does not truncate them, and every offset is an `int`.
-/
theorem disassemble_listsRegion_iff (decoder : ListingDecoder) (region : MDBCodeRegion)
    (bytes : List Byte) (bufferSize : Nat) (loaded : bytes.length = region.size)
    (nonempty : 1 ≤ region.size) (small : region.size < 2 ^ 32) :
    (∃ text, Leaves (region.disassembleBody decoder bytes) region.startDisassembly text ∧
        ListsRegion decoder region bytes bufferSize text) ↔
      ListingFits decoder region bytes bufferSize := by
  rcases Covers.exists_covers decoder (Nat.zero_le bytes.length) with ⟨positions, covers⟩
  simp only [leaves_iff covers loaded nonempty small, exists_eq_left]
  constructor
  · rintro ⟨positions', covers', text_eq, room⟩
    simp only [covers.unique covers'] at text_eq
    have bound : ∀ position ∈ positions, position < 2 ^ 32 := by
      intro position present
      have inside := covers.lt_length position present
      omega
    have isSmall : ∀ position ∈ positions, position < 2 ^ 31 := by
      apply lt_of_listing_prefix bound
      rw [text_eq]
      exact List.take_prefix _ _
    refine ⟨positions, covers, isSmall, ?_⟩
    rw [← length_listing (fun position => region.address + BitVec.ofNat 64 position),
      ← listing_eq isSmall]
    exact room
  · rintro ⟨positions', covers', isSmall, room⟩
    have same := covers.unique covers'
    subst same
    simp only [← length_listing (fun position => region.address + BitVec.ofNat 64 position)] at room
    refine ⟨positions', covers, ?_, ?_⟩
    · rw [listing_eq isSmall, List.take_of_length_le]
      omega
    · rw [listing_eq isSmall]
      exact room

/-! ## A region of one instruction -/

/-- Every byte is decoded as `nop`. -/
def nopDecoder : ListingDecoder where
  disassemble _ _ := ⟨1, [0x39#8, 0x30#8], [0x6e#8, 0x6f#8, 0x70#8]⟩
  consumes _ _ inside := ⟨Nat.le_refl 1, inside⟩

def nopRegion : MDBCodeRegion := ⟨0x1000#64, none, 1⟩

theorem disassemble_listsRegion_iff_nop :
    (∃ text, Leaves (nopRegion.disassembleBody nopDecoder [0x90#8]) nopRegion.startDisassembly
        text ∧ ListsRegion nopDecoder nopRegion [0x90#8] 64 text) ↔
      ListingFits nopDecoder nopRegion [0x90#8] 64 :=
  disassemble_listsRegion_iff nopDecoder nopRegion [0x90#8] 64 rfl (by decide) (by decide)

/-- The line of one instruction does not fit in a buffer of eight bytes, and is written there. -/
theorem not_listsRegion_nop :
    ¬∃ text, Leaves (nopRegion.disassembleBody nopDecoder [0x90#8]) nopRegion.startDisassembly
        text ∧ ListsRegion nopDecoder nopRegion [0x90#8] 8 text := by
  have covers : Covers nopDecoder [0x90#8] 0 [0] := .insn (by decide) .ended
  rintro ⟨text, left, _, _, _, room⟩
  rw [leaves_iff covers rfl (by decide) (by decide)] at left
  simp only [left, length_listing] at room
  revert room
  decide

end RustDbg
