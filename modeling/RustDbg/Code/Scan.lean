import RustDbg.Breakpoint.Basic
import RustDbg.Code.Region
import RustDbg.Library.Traversal

/-!
# Scanning procedures

`MDBCode::scanProcedure` decodes a procedure up to its first return, records a region
if it finds one, and goes on with the targets of the calls it has decoded. The recursion
is the traversal of `Traversal`, pruned by a lookup in the list of regions.
-/

namespace RustDbg

open Buffer

/-! ## Symbols -/

/-- `strcmp(name, other) == 0`, for a name in the buffer of its file. -/
def SymbolName.equals (buffer : List Byte) (name : SymbolName) (other : List Byte) : Bool :=
  match name with
  | .ENTRY_POINT_SYMBOL_NAME => entryPointName = other
  | .inBuffer position => equalsAt buffer position other = some true

/-- `MDBCode::findSymbolByNameOrAddress`; a null name is taken for the empty one. -/
def findSymbolByNameOrAddress (files : List MDBMachFile) (symbolName : Option (List Byte))
    (address : Address) : Option MDBSymbol :=
  files.findSome? fun machFile => machFile.symbols.find? fun symbol =>
    symbol.name.equals machFile.buffer (symbolName.getD []) || symbol.address = address

/-! ## Decoding a procedure -/

inductive OperandType where
  | UD_OP_JIMM
  | other (code : Nat)
deriving DecidableEq, Repr

/-- The fields of the first operand that the scanner uses. -/
structure Operand where
  type : OperandType
  size : Nat
  /-- `lval.sdword` -/
  sdword : BitVec 32
deriving DecidableEq, Repr

structure ScannedInstruction extends DecodedInstruction where
  operand : Operand
deriving DecidableEq, Repr

/-- `ud_disassemble` on the rest of an input buffer; it never consumes more than is there. -/
structure Disassembler where
  disassemble : List Byte → ScannedInstruction
  size_le : ∀ bytes, (disassemble bytes).size ≤ bytes.length

/-- What the scanner reads apart from the regions. -/
structure ScanInput where
  ud : Disassembler
  state : BreakpointState
  /-- Whether the bytes of a procedure at an address can be read. -/
  readable : Address → Bool
  /-- What the buffer of a procedure holds before it is read into. -/
  unusedBuffer : Address → Nat → Byte
  files : List MDBMachFile

namespace ScanInput

def bufferSize : Nat := 1024 * 8

/-- The buffer that is decoded for an address; that the read failed is only logged. -/
def buffer (input : ScanInput) (address : Address) : List Byte :=
  (input.state.read (input.readable address)
    ((List.range bufferSize).map (input.unusedBuffer address)) address).1

/-- What decoding a procedure finds: its call targets and its size if it returns. -/
structure Procedure where
  callTargets : List Address
  size : Option Nat
deriving DecidableEq, Repr

/-- The target of a call that ends at an offset from an address, 0 if it is not a direct one. -/
def callTarget (address : Address) (pc : Nat) (operand : Operand) : Address :=
  if operand.type = .UD_OP_JIMM ∧ operand.size = 32 then
    address + BitVec.ofNat 64 pc + operand.sdword.signExtend 64
  else 0

/-- The decoding loop of `MDBCode::scanProcedure`, which consumes a byte each time around. -/
def decode (ud : Disassembler) (address : Address) :
    Nat → List Byte → Nat → List Address → Procedure
  | 0, _, _, callTargets => ⟨callTargets, none⟩
  | fuel + 1, bytes, pc, callTargets =>
      if bytes = [] then ⟨callTargets, none⟩ else
      let insn := ud.disassemble bytes
      if insn.size = 0 then ⟨callTargets, none⟩ else
      match insn.mnemonic with
      | .UD_Icall =>
          let target := callTarget address (pc + insn.size) insn.operand
          let callTargets :=
            if target ≠ 0 ∧ target ∉ callTargets then callTargets ++ [target] else callTargets
          decode ud address fuel (bytes.drop insn.size) (pc + insn.size) callTargets
      | .UD_Iret => ⟨callTargets, some (pc + insn.size)⟩
      | .other _ => decode ud address fuel (bytes.drop insn.size) (pc + insn.size) callTargets

def procedure (input : ScanInput) (address : Address) : Procedure :=
  decode input.ud address bufferSize (input.buffer address) 0 []

/-! ## Scanning -/

/-- The region of a procedure, if it returns. -/
def region (input : ScanInput) (address : Address) : Option MDBCodeRegion :=
  (input.procedure address).size.map fun size =>
    ⟨address, findSymbolByNameOrAddress input.files none address, size⟩

/-- `MDBCode::scanProcedure` up to its recursive calls: the regions and the calls it will make. -/
def enter (input : ScanInput) (regions : List MDBCodeRegion) (address : Address) :
    Option (List MDBCodeRegion × List Address) :=
  if (getRegion regions address).isSome then none
  else some (regions ++ (input.region address).toList, (input.procedure address).callTargets)

/-- `MDBCode::scanProcedure` with a bound on the depth of its recursion. -/
def scanProcedure (input : ScanInput) (depth : Nat) (regions : List MDBCodeRegion)
    (address : Address) : Option (List MDBCodeRegion) :=
  Traversal.visit input.enter depth regions address

/-- What each call that decodes finds in its buffer before it reads, at each address. -/
abbrev Buffers := Nat → Address → Nat → Byte

/-- The input of a call with something else in its buffer. -/
def holding (input : ScanInput) (unused : Address → Nat → Byte) : ScanInput :=
  { input with unusedBuffer := unused }

/-- `enter` where the calls that decode are counted, and each has a buffer of its own. -/
def enterWith (input : ScanInput) (buffers : Buffers) (state : List MDBCodeRegion × Nat)
    (address : Address) : Option ((List MDBCodeRegion × Nat) × List Address) :=
  ((input.holding (buffers state.2)).enter state.1 address).map (Prod.map (·, state.2 + 1) id)

/-- `MDBCode::scanProcedure` where every call finds what it likes in its buffer. -/
def scanProcedureWith (input : ScanInput) (buffers : Buffers) (depth : Nat)
    (regions : List MDBCodeRegion) (address : Address) : Option (List MDBCodeRegion) :=
  (Traversal.visit (input.enterWith buffers) depth (regions, 0) address).map (·.1)

/-- If the buffers hold the same for each call at an address, this is `scanProcedure`. -/
theorem scanProcedureWith_const (input : ScanInput) (unused : Address → Nat → Byte) (depth : Nat)
    (regions : List MDBCodeRegion) (address : Address) :
    input.scanProcedureWith (fun _ => unused) depth regions address =
      (input.holding unused).scanProcedure depth regions address := by
  apply Traversal.map_visit
  intro state node
  rw [enterWith, Option.map_map]
  exact Option.map_id'

/-! ## What decoding finds -/

theorem length_read (state : BreakpointState) (ok : Bool) (dst : List Byte) (src : Address) :
    (state.read ok dst src).1.length = dst.length := by
  have hide : ∀ (breakpoints : List MDBBreakpoint) (size : Nat) (buffer : List Byte),
      (breakpoints.foldl (BreakpointState.hidePatch src size) buffer).length = buffer.length := by
    intro breakpoints size buffer
    induction breakpoints generalizing buffer with
    | nil => rfl
    | cons breakpoint rest ih =>
        simp only [List.foldl_cons, ih]
        simp only [BreakpointState.hidePatch]
        split
        · split
          · exact List.length_set
          · rfl
        · rfl
  simp only [BreakpointState.read, hide, machVmReadOverwrite]
  split
  · exact length_window _ _ _
  · rfl

@[simp]
theorem length_buffer (input : ScanInput) (address : Address) :
    (input.buffer address).length = bufferSize := by
  simp only [buffer, length_read, List.length_map, List.length_range]

/-- With a byte of fuel for each byte of the buffer, decoding does not run out of it. -/
theorem decode_of_le {ud : Disassembler} {address : Address} {fuel more : Nat} {bytes : List Byte}
    (enough : bytes.length ≤ fuel) (moreEnough : bytes.length ≤ more) (pc : Nat)
    (callTargets : List Address) :
    decode ud address fuel bytes pc callTargets = decode ud address more bytes pc callTargets := by
  induction fuel generalizing more bytes pc callTargets with
  | zero =>
      have empty : bytes = [] := List.length_eq_zero_iff.mp (Nat.le_zero.mp enough)
      cases more <;> simp [decode, empty]
  | succ fuel ih =>
      rcases more with _ | more
      · have empty : bytes = [] := List.length_eq_zero_iff.mp (Nat.le_zero.mp moreEnough)
        simp [decode, empty]
      · have rest : (ud.disassemble bytes).size ≠ 0 →
            (bytes.drop (ud.disassemble bytes).size).length ≤ fuel ∧
              (bytes.drop (ud.disassemble bytes).size).length ≤ more := by
          intro consumed
          rw [List.length_drop]
          omega
        simp only [decode]
        split
        · rfl
        · split
          · rfl
          · rename_i consumed
            rcases rest consumed with ⟨fits, fitsMore⟩
            cases (ud.disassemble bytes).mnemonic with
            | UD_Icall => exact ih fits fitsMore _ _
            | UD_Iret => rfl
            | other => exact ih fits fitsMore _ _

theorem size_of_decode {ud : Disassembler} {address : Address} {fuel pc size : Nat}
    {bytes : List Byte} {callTargets : List Address}
    (returns : (decode ud address fuel bytes pc callTargets).size = some size) :
    pc < size ∧ size ≤ pc + bytes.length := by
  induction fuel generalizing bytes pc callTargets with
  | zero => cases returns
  | succ fuel ih =>
      have fits := ud.size_le bytes
      have rest : ∀ targets, (decode ud address fuel (bytes.drop (ud.disassemble bytes).size)
          (pc + (ud.disassemble bytes).size) targets).size = some size →
            pc < size ∧ size ≤ pc + bytes.length := by
        intro targets later
        have bounds := ih later
        simp only [List.length_drop] at bounds
        omega
      simp only [decode] at returns
      split at returns
      · cases returns
      · split at returns
        · cases returns
        · rename_i consumed
          split at returns
          · exact rest _ returns
          · simp only [Option.some.injEq] at returns
            omega
          · exact rest _ returns

/-- A recorded region is as large as the bytes up to its first return. -/
theorem size_region {input : ScanInput} {address : Address} {region : MDBCodeRegion}
    (found : input.region address = some region) :
    region.address = address ∧ 0 < region.size ∧ region.size ≤ bufferSize := by
  simp only [ScanInput.region, Option.map_eq_some_iff] at found
  rcases found with ⟨size, returns, rfl⟩
  have bounds := size_of_decode returns
  simp only [length_buffer, Nat.zero_add] at bounds
  exact ⟨rfl, bounds.1, bounds.2⟩

theorem lt_of_le_bufferSize {size : Nat} (fits : size ≤ bufferSize) : size < 2 ^ 31 := by
  simp only [bufferSize] at fits
  omega

/-! ## A small decoder -/

/-- Decodes near calls, returns and `nop`; with any other byte an instruction takes the rest. -/
def callsAndReturns : Disassembler where
  disassemble
    | 0xE8#8 :: b0 :: b1 :: b2 :: b3 :: _ =>
        ⟨⟨5, .UD_Icall⟩, ⟨.UD_OP_JIMM, 32, BitVec.ofNat 32 (LittleEndian.ofBytes [b0, b1, b2, b3])⟩⟩
    | 0xC3#8 :: _ => ⟨⟨1, .UD_Iret⟩, ⟨.other 0, 0, 0⟩⟩
    | 0x90#8 :: _ => ⟨⟨1, .other 0⟩, ⟨.other 0, 0, 0⟩⟩
    | bytes => ⟨⟨bytes.length, .other 0⟩, ⟨.other 0, 0, 0⟩⟩
  size_le bytes := by
    split <;> simp

theorem callsAndReturns_consumes {bytes : List Byte} (more : bytes ≠ []) :
    0 < (callsAndReturns.disassemble bytes).size := by
  simp only [callsAndReturns]
  split
  · exact Nat.zero_lt_succ 4
  · exact Nat.zero_lt_one
  · exact Nat.zero_lt_one
  · apply List.length_pos_iff.mpr
    exact more

/-- A debugger without breakpoints or symbols and a target whose memory can all be read. -/
def onlyMemory (memory : Memory) : ScanInput where
  ud := callsAndReturns
  state := BreakpointState.initial memory
  readable _ := true
  unusedBuffer _ _ := 0#8
  files := []

end ScanInput

end RustDbg
