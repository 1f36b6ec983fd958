import RustDbg.Target.Memory

/-!
# Breakpoints and the debugger's memory accesses

`MDBBreakpoint`, the breakpoint tables of `MDBDebugger` and the functions that
read, write and patch the target's memory. `MDBDebugger::createBreakpoint` is the only
place where a breakpoint is constructed and `MDBDebugger::breakpoints` never
shrinks, so a pointer to a breakpoint is its position in a table.

The functions keep the source's conversions between `int` and `bool`: `read`
answers -1 when it fails, which is true as a condition, and `write` answers the
size it was given whether or not the target was written.
-/

namespace RustDbg

/-- A callback object; only its identity matters to the debugger. -/
abbrev CallbackId := Nat

structure MDBBreakpoint where
  address : Address
  /-- The byte to write back; not initialized by the constructor. -/
  patch : Byte
  enabled : Bool
  callback : Option CallbackId
deriving DecidableEq, Repr

/-- A pointer to a breakpoint: a position in one of the two tables of `MDBDebugger`. -/
inductive BreakpointRef where
  | regular (index : Nat)
  | transient (index : Nat)
deriving DecidableEq, Repr

structure BreakpointState where
  memory : Memory
  breakpoints : List MDBBreakpoint
  transientBreakpoints : List MDBBreakpoint

namespace BreakpointState

def initial (original : Memory) : BreakpointState := ⟨original, [], []⟩

/-- The object a pointer points to. -/
def deref (state : BreakpointState) : BreakpointRef → Option MDBBreakpoint
  | .regular index => state.breakpoints[index]?
  | .transient index => state.transientBreakpoints[index]?

def assign (state : BreakpointState) (breakpoint : MDBBreakpoint) :
    BreakpointRef → BreakpointState
  | .regular index => { state with breakpoints := state.breakpoints.set index breakpoint }
  | .transient index =>
      { state with transientBreakpoints := state.transientBreakpoints.set index breakpoint }

/-- One iteration of the loop of `MDBDebugger::read` that hides the patches. -/
def hidePatch (src : Address) (size : Nat) (dst : List Byte) (breakpoint : MDBBreakpoint) :
    List Byte :=
  if breakpoint.enabled then
    let offset := (breakpoint.address - src).toInt
    if 0 ≤ offset ∧ offset < intOfSize size then
      dst.set offset.toNat breakpoint.patch
    else dst
  else dst

/--
`MDBDebugger::read(dst, src, size)` with `size` the length of `dst`: the buffer
afterwards and the returned `int`. The patches are hidden before a failed call
is noticed.
-/
def read (state : BreakpointState) (ok : Bool) (dst : List Byte) (src : Address) :
    List Byte × Int :=
  let buffer := machVmReadOverwrite ok state.memory src dst
  let buffer := state.breakpoints.foldl (hidePatch src dst.length) buffer
  (buffer, if ok then intOfSize dst.length else -1)

/-- `MDBDebugger::write(dst, src, size)`: the memory afterwards and the returned `int`. -/
def write (memory : Memory) (outcome : AccessOutcome) (dst : Address) (src : List Byte) :
    Memory × Int :=
  if outcome.writeOk then
    (machVmWrite outcome.writeOk memory dst src, intOfSize src.length)
  else
    -- `mach_vm_protect` changes no byte, and its result only goes to the log.
    (machVmWrite outcome.rewriteOk memory dst src, intOfSize src.length)

/-- `MDBDebugger::createBreakpoint`; `patch` is what the new object's memory held. -/
def createBreakpoint (state : BreakpointState) (address : Address)
    (callback : Option CallbackId) (patch : Byte) : BreakpointRef × BreakpointState :=
  let breakpoint : MDBBreakpoint := ⟨address, patch, false, callback⟩
  (.regular state.breakpoints.length,
    { state with breakpoints := state.breakpoints ++ [breakpoint] })

/-- `MDBDebugger::findBreakpoint` -/
def findBreakpoint (state : BreakpointState) (address : Address) : Option BreakpointRef :=
  match state.breakpoints.findIdx? (·.address == address) with
  | some index => some (.regular index)
  | none => (state.transientBreakpoints.findIdx? (·.address == address)).map .transient

/-- `MDBBreakpoint::enable(enable)`; a pointer to no object changes nothing. -/
def enable (state : BreakpointState) (outcome : AccessOutcome) (ref : BreakpointRef)
    (enable : Bool) : BreakpointState :=
  match state.deref ref with
  | none => state
  | some breakpoint =>
      if breakpoint.enabled = false ∧ enable = true then
        let (buffer, bytesRead) := state.read outcome.readOk [breakpoint.patch] breakpoint.address
        let breakpoint := { breakpoint with patch := buffer.headD breakpoint.patch }
        -- `&&` makes the write depend on what `read` returned.
        if bytesRead ≠ 0 then
          let (memory, written) := write state.memory outcome breakpoint.address [int_3]
          { state with memory }.assign { breakpoint with enabled := written ≠ 0 } ref
        else
          state.assign { breakpoint with enabled := false } ref
      else if breakpoint.enabled = true ∧ enable = false then
        let (memory, written) := write state.memory outcome breakpoint.address [breakpoint.patch]
        { state with memory }.assign { breakpoint with enabled := written = 0 } ref
      else state

def disable (state : BreakpointState) (outcome : AccessOutcome) (ref : BreakpointRef) :
    BreakpointState :=
  state.enable outcome ref false

end BreakpointState

inductive BreakpointCall where
  | createBreakpoint (address : Address) (callback : Option CallbackId) (patch : Byte)
  | enable (ref : BreakpointRef) (enable : Bool)
  | disable (ref : BreakpointRef)
deriving DecidableEq, Repr

namespace BreakpointState

/-- Performing a call; a call on a pointer to no object is not possible. -/
def perform (outcome : AccessOutcome) (state : BreakpointState) :
    BreakpointCall → Option BreakpointState
  | .createBreakpoint address callback patch =>
      some (state.createBreakpoint address callback patch).2
  | .enable ref flag =>
      if (state.deref ref).isSome then some (state.enable outcome ref flag) else none
  | .disable ref =>
      if (state.deref ref).isSome then some (state.disable outcome ref) else none

end BreakpointState

end RustDbg
