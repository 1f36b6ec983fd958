import RustDbg.Code.Region
import RustDbg.Debugger.Session

/-!
# The stack walk

`MDBStack::updateState` for a thread. All its reads go through `MDBDebugger::read`; a
variable that a read fails to fill keeps its value.
-/

namespace RustDbg

open LittleEndian (ofBytes toBytes)

structure MDBStackFrame where
  /-- The position of the calling frame among the frames of the stack. -/
  parent : Option Nat
  address : Address
  codeAddress : Address
  codeRegion : Option MDBCodeRegion
  size : Nat
deriving DecidableEq, Repr

structure MDBStack where
  frame : Option Nat
  frames : List MDBStackFrame
deriving DecidableEq, Repr

/-- `64 * K` -/
def MAX_STACK_SIZE : Nat := 64 * 1024

namespace MDBStack

/-- `MDBDebugger::read(&value, address, sizeof(uint32_t))` into a `uint32_t`. -/
def readU32 (session : Session) (value : BitVec 32) (address : Address) : BitVec 32 × Session :=
  let (outcome, session) := session.nextAccess
  let buffer := (session.breakpointState.read outcome.readOk (toBytes 4 value.toNat) address).1
  (BitVec.ofNat 32 (ofBytes buffer), session)

def isInteriorPointer (thread : MDBThread) (address : Address) : Bool :=
  let frameAddress : Address := thread.state32.ebp.setWidth 64
  let baseAddress := frameAddress + BitVec.ofNat 64 MAX_STACK_SIZE
  address ≥ baseAddress && address ≤ frameAddress

/-- The size of the frame at an address, at most 256. -/
def sizeBetween (previousFrameAddress : BitVec 32) (frameAddress : Address) : Nat :=
  let frameSize := (previousFrameAddress.setWidth 64 - frameAddress).toNat
  if frameSize > 256 then 256 else frameSize

/--
The loop of `MDBStack::updateState`, which breaks when there are more than 64
frames: the frames that it pushes when there is still room for some.
-/
def walk (regions : List MDBCodeRegion) (thread : MDBThread) :
    Nat → Session → Address → Address → Nat → List MDBStackFrame × Session
  | 0, session, _, _, _ => ([], session)
  | room + 1, session, codeAddress, frameAddress, frameSize =>
      if frameAddress = 0 then ([], session) else
      let (previousFrameAddress, session) := readU32 session 0 frameAddress
      let (previousFrameAddressOffset, previousFrameAddress, session) :=
        if isInteriorPointer thread (previousFrameAddress.setWidth 64) = false then
          (12, readU32 session previousFrameAddress (frameAddress + 12))
        else (0, previousFrameAddress, session)
      let region := getRegion regions codeAddress
      let frame := ⟨none, frameAddress, codeAddress, region, frameSize⟩
      -- The word goes to the lower half of a `uintptr_t`.
      let (returnAddress, session) := readU32 session (codeAddress.setWidth 32)
        (frameAddress + BitVec.ofNat 64 previousFrameAddressOffset + 4)
      let codeAddress := (codeAddress >>> 32 <<< 32) ||| returnAddress.setWidth 64
      let frameSize := sizeBetween previousFrameAddress frameAddress
      let (frames, session) :=
        walk regions thread room session codeAddress (previousFrameAddress.setWidth 64) frameSize
      (frame :: frames, session)

/-- The variables of the loop of `MDBStack::updateState`. -/
structure WalkState where
  session : Session
  codeAddress : Address
  frameAddress : Address
  frameSize : Nat
  frames : List MDBStackFrame

/-- The body of the loop, up to its test of how many frames there are. -/
def iterate (regions : List MDBCodeRegion) (thread : MDBThread) (state : WalkState) : WalkState :=
  let (previousFrameAddress, session) := readU32 state.session 0 state.frameAddress
  -- `previousFrameAddressOffset`, `previousFrameAddress` and the session.
  let previous : Nat × BitVec 32 × Session :=
    if isInteriorPointer thread (previousFrameAddress.setWidth 64) = false then
      (12, readU32 session previousFrameAddress (state.frameAddress + 12))
    else (0, previousFrameAddress, session)
  let region := getRegion regions state.codeAddress
  let frame := ⟨none, state.frameAddress, state.codeAddress, region, state.frameSize⟩
  let (returnAddress, session) := readU32 previous.2.2 (state.codeAddress.setWidth 32)
    (state.frameAddress + BitVec.ofNat 64 previous.1 + 4)
  { session
    codeAddress := (state.codeAddress >>> 32 <<< 32) ||| returnAddress.setWidth 64
    frameAddress := previous.2.1.setWidth 64
    frameSize := sizeBetween previous.2.1 state.frameAddress
    frames := state.frames ++ [frame] }

/-- The loop as it is: none where it is left, at its condition or at the test in its body. -/
def loopStep (regions : List MDBCodeRegion) (thread : MDBThread) (state : WalkState) :
    Option WalkState :=
  -- The test comes after an iteration, but before the first one there is no frame.
  if state.frameAddress = 0 ∨ state.frames.length > 64 then none
  else some (iterate regions thread state)

/-- The loop that links each frame to its successor in the list. -/
def link (frames : List MDBStackFrame) : List MDBStackFrame :=
  frames.mapIdx fun i frame =>
    { frame with parent := if i < frames.length - 1 then some (i + 1) else frame.parent }

def updateState (regions : List MDBCodeRegion) (session : Session) (thread : MDBThread) :
    MDBStack × Session :=
  let codeAddress : Address := thread.state32.eip.setWidth 64
  let frameAddress : Address := thread.state32.ebp.setWidth 64
  let (frames, session) := walk regions thread 65 session codeAddress frameAddress 128
  (⟨if frames.length > 0 then some 0 else none, link frames⟩, session)

/-! ## One iteration of the walk -/

theorem setWidth_inj {first second : BitVec 32} :
    first.setWidth 64 = second.setWidth 64 ↔ first = second := by
  constructor
  · intro same
    bv_omega
  · rintro rfl
    rfl

theorem setWidth_eq_zero_iff {word : BitVec 32} : word.setWidth 64 = (0 : Address) ↔ word = 0 :=
  @setWidth_inj word 0

variable {regions : List MDBCodeRegion} {thread : MDBThread} {state : WalkState}

theorem iterate_frames :
    (iterate regions thread state).frames = state.frames ++
      [⟨none, state.frameAddress, state.codeAddress, getRegion regions state.codeAddress,
        state.frameSize⟩] := rfl

theorem sizeBetween_le (previousFrameAddress : BitVec 32) (frameAddress : Address) :
    sizeBetween previousFrameAddress frameAddress ≤ 256 := by
  simp only [sizeBetween]
  split
  · rfl
  · omega

theorem iterate_frameSize_le : (iterate regions thread state).frameSize ≤ 256 := by
  simp only [iterate]
  apply sizeBetween_le

theorem walk_of_null (room : Nat) (session : Session) (codeAddress : Address)
    {frameAddress : Address} (null : frameAddress = 0) (frameSize : Nat) :
    walk regions thread room session codeAddress frameAddress frameSize = ([], session) := by
  cases room with
  | zero => rfl
  | succ room => rw [walk, if_pos null]

/-- While there is room the walk pushes a frame and goes on where an iteration of the loop does. -/
theorem walk_of_ne_null (nonzero : state.frameAddress ≠ 0) (room : Nat) :
    walk regions thread (room + 1) state.session state.codeAddress state.frameAddress
        state.frameSize =
      let next := iterate regions thread state
      let walked :=
        walk regions thread room next.session next.codeAddress next.frameAddress next.frameSize
      (⟨none, state.frameAddress, state.codeAddress, getRegion regions state.codeAddress,
        state.frameSize⟩ :: walked.1, walked.2) := by
  rcases first : readU32 state.session 0 state.frameAddress with ⟨word, session⟩
  cases interior : isInteriorPointer thread (word.setWidth 64) with
  | false => simp only [walk, if_neg nonzero, iterate, first, interior, if_true]
  | true => simp only [walk, if_neg nonzero, iterate, first, interior, Bool.true_eq_false, if_false]

end MDBStack

end RustDbg
