import Mathlib.Algebra.Group.Nat.Defs
import Mathlib.Data.List.Basic
import Mathlib.Logic.Function.Basic

/-!
# Target memory, the Mach calls that access it and its instructions

The memory of the debugged task is a total map from 64-bit addresses to bytes,
as a 64-bit build of the debugger addresses it. A Mach call that fails has no
effect; which calls fail is not computed but supplied by an `AccessOutcome`, so
that statements can range over every pattern of failures.

udis86, which decodes the instructions, is not part of the repository; a decoder is any
function from the bytes of an input buffer to the instruction it finds at the buffer's start.
-/

namespace RustDbg

/-- `uint64_t`, and `vm_address_t` of a 64-bit build. -/
abbrev Address := BitVec 64

instance : LawfulBEq Address := inferInstance

abbrev Byte := BitVec 8

abbrev Memory := Address → Byte

def int_3 : Byte := 0xCC#8

def window (memory : Memory) (src : Address) (size : Nat) : List Byte :=
  (List.range size).map fun i => memory (src + BitVec.ofNat 64 i)

/-- Memory after `bytes` have been copied to `dst`. -/
def store (memory : Memory) (dst : Address) (bytes : List Byte) : Memory :=
  fun address => (bytes[(address - dst).toNat]?).getD (memory address)

/-- Which of the Mach calls made for one memory access succeed. -/
structure AccessOutcome where
  readOk : Bool
  /-- The first `mach_vm_write` of `MDBDebugger::write`. -/
  writeOk : Bool
  /-- `mach_vm_protect`, called when the first write failed; its failure is only reported. -/
  protectOk : Bool
  /-- The second `mach_vm_write`. -/
  rewriteOk : Bool
deriving DecidableEq, Repr

namespace AccessOutcome

def success : AccessOutcome := ⟨true, true, true, true⟩

/-- One of the two attempts of `MDBDebugger::write` reaches the target. -/
def writes (outcome : AccessOutcome) : Bool := outcome.writeOk || outcome.rewriteOk

@[simp]
theorem readOk_success : success.readOk = true := rfl

@[simp]
theorem writes_success : success.writes = true := rfl

end AccessOutcome

/-- `mach_vm_read_overwrite(task, src, size, dst, &bytesRead)`, with `size` the length of `dst`. -/
def machVmReadOverwrite (ok : Bool) (memory : Memory) (src : Address) (dst : List Byte) :
    List Byte :=
  if ok then window memory src dst.length else dst

def machVmWrite (ok : Bool) (memory : Memory) (dst : Address) (bytes : List Byte) : Memory :=
  if ok then store memory dst bytes else memory

/-- The `int` a `size_t` converts to. -/
def intOfSize (size : Nat) : Int := (BitVec.ofNat 32 size).toInt

theorem intOfSize_of_lt {size : Nat} (small : size < 2 ^ 31) : intOfSize size = size := by
  rw [intOfSize, BitVec.toInt_eq_toNat_of_lt]
  · rw [BitVec.toNat_ofNat, Nat.mod_eq_of_lt (by omega)]
  · rw [BitVec.toNat_ofNat, Nat.mod_eq_of_lt (by omega)]
    omega

@[simp]
theorem length_window (memory : Memory) (src : Address) (size : Nat) :
    (window memory src size).length = size := by
  simp [window]

@[simp]
theorem getElem_window (memory : Memory) (src : Address) (size i : Nat)
    (bound : i < (window memory src size).length) :
    (window memory src size)[i] = memory (src + BitVec.ofNat 64 i) := by
  simp [window]

theorem getElem?_window (memory : Memory) (src : Address) {size i : Nat} (bound : i < size) :
    (window memory src size)[i]? = some (memory (src + BitVec.ofNat 64 i)) := by
  have inside : i < (window memory src size).length := by rwa [length_window]
  rw [List.getElem?_eq_getElem inside, getElem_window]

theorem window_congr {memory other : Memory} {src : Address} {size : Nat}
    (agree : ∀ i < size, memory (src + BitVec.ofNat 64 i) = other (src + BitVec.ofNat 64 i)) :
    window memory src size = window other src size := by
  apply List.map_congr_left
  intro i mem
  exact agree i (List.mem_range.mp mem)

@[simp]
theorem store_singleton (memory : Memory) (dst : Address) (byte : Byte) :
    store memory dst [byte] = Function.update memory dst byte := by
  funext address
  by_cases here : address = dst
  · subst here
    simp [store]
  · have nonzero : (address - dst).toNat ≠ 0 := by
      intro zero
      apply here
      have : address - dst = 0#64 := by simpa using BitVec.toNat_inj.mp (by simpa using zero)
      bv_omega
    simp only [Function.update_of_ne here, store]
    rcases offset : (address - dst).toNat with _ | n
    · exact absurd offset nonzero
    · simp

/-! ## The disassembler -/

inductive Mnemonic where
  | UD_Icall
  | UD_Iret
  | other (code : Nat)
deriving DecidableEq, Repr

/-- What `ud_disassemble` leaves behind: its result and the fields of `ud_t` that are used. -/
structure DecodedInstruction where
  /-- The number of bytes consumed, 0 if they cannot be decoded. -/
  size : Nat
  mnemonic : Mnemonic
deriving DecidableEq, Repr

/-- `ud_disassemble` on a new `ud_t` over an input buffer, in 32-bit mode. -/
abbrev Udis86 := List Byte → DecodedInstruction

end RustDbg
