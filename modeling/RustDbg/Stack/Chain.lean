import RustDbg.Stack.Walk

/-!
# Standard frame chains

A standard frame holds the address of its caller's frame and, in the next word, the
return address. The walk takes a pointer for one into the stack only if it lies above
the stack and below the base pointer at once, so it never does: it looks for both words
twelve bytes further up, in every frame.
-/

namespace RustDbg

open BreakpointState (view)

namespace MDBStack

/-- The word at an address. -/
def wordIn (memory : Memory) (address : Address) : BitVec 32 :=
  BitVec.ofNat 32 (LittleEndian.ofBytes (window memory address 4))

structure StandardFrame where
  address : BitVec 32
  returnAddress : BitVec 32

/-- A memory holds a chain of standard frames for a base pointer. -/
structure StandardChain (memory : Memory) (ebp : BitVec 32) (chain : List StandardFrame) :
    Prop where
  starts : chain.head?.map (·.address) = some ebp
  short : chain.length ≤ 64
  increasing : chain.Pairwise fun frame next => frame.address < next.address
  near : ∀ frame ∈ chain, frame.address.toNat ≤ ebp.toNat + MAX_STACK_SIZE
  links : ∀ i frame, chain[i]? = some frame →
    wordIn memory (frame.address.setWidth 64) = (chain[i + 1]?.map (·.address)).getD 0
  returns : ∀ frame ∈ chain, wordIn memory (frame.address.setWidth 64 + 4) = frame.returnAddress

/-- The frames that the chain stands for, when the code of the first is at an address. -/
def expectedFrames (regions : List MDBCodeRegion) :
    BitVec 32 → List StandardFrame → List (Address × Address × Option MDBCodeRegion)
  | _, [] => []
  | codeAddress, frame :: rest =>
      (frame.address.setWidth 64, codeAddress.setWidth 64,
        getRegion regions (codeAddress.setWidth 64)) ::
      expectedFrames regions frame.returnAddress rest

/-- The stack has exactly the frames of the chain. -/
def Recovers (regions : List MDBCodeRegion) (thread : MDBThread) (chain : List StandardFrame)
    (stack : MDBStack) : Prop :=
  stack.frames.map (fun frame => (frame.address, frame.codeAddress, frame.codeRegion)) =
    expectedFrames regions thread.state32.eip chain

/-- Twelve bytes further up, each frame links to its caller and holds its return address again. -/
def RepeatsAbove (memory : Memory) : List StandardFrame → Prop
  | [] => True
  | [frame] => wordIn memory (frame.address.setWidth 64 + 12) = 0
  | frame :: next :: rest =>
      wordIn memory (frame.address.setWidth 64 + 12) = next.address ∧
      wordIn memory (frame.address.setWidth 64 + 16) = frame.returnAddress ∧
      RepeatsAbove memory (next :: rest)

/-! ## One iteration -/

/-- All reads that the session will make succeed. -/
def ReadsSucceed (session : Session) : Prop := ∀ outcome ∈ session.accesses, outcome.readOk = true

theorem readU32_of_succeed {session : Session} (reads : ReadsSucceed session) (value : BitVec 32)
    (address : Address) :
    readU32 session value address =
      (wordIn (view session.breakpointState) address, session.nextAccess.2) := by
  have readOk : session.nextAccess.1.readOk = true := by
    simp only [Session.nextAccess]
    cases pending : session.accesses with
    | nil => rfl
    | cons outcome rest => exact reads outcome (by simp [pending])
  have state : session.nextAccess.2.breakpointState = session.breakpointState := rfl
  simp only [readU32, state, readOk]
  rw [BreakpointState.read_eq_window _ _ _ (by simp), LittleEndian.length_toBytes]
  rfl

theorem ReadsSucceed.nextAccess {session : Session} (reads : ReadsSucceed session) :
    ReadsSucceed session.nextAccess.2 :=
  fun outcome pending => reads outcome (List.mem_of_mem_tail pending)

/-- No pointer is both above the end of the stack and below its base. -/
theorem isInteriorPointer_eq_false (thread : MDBThread) (address : Address) :
    isInteriorPointer thread address = false := by
  have bound := thread.state32.ebp.isLt
  have size : (BitVec.ofNat 64 MAX_STACK_SIZE).toNat = 65536 := rfl
  rw [Bool.eq_false_iff]
  intro interior
  simp only [isInteriorPointer, Bool.and_eq_true, decide_eq_true_eq, ge_iff_le,
    BitVec.le_def] at interior
  simp only [BitVec.toNat_add, BitVec.toNat_setWidth, size] at interior
  omega

/-- An iteration pushes a frame and goes on with the words twelve bytes above the standard ones. -/
theorem walk_succ (regions : List MDBCodeRegion) (thread : MDBThread) {session : Session}
    (reads : ReadsSucceed session) {frameWord : BitVec 32} (nonzero : frameWord ≠ 0)
    (codeWord : BitVec 32) (room frameSize : Nat) :
    ∃ next nextSize, ReadsSucceed next ∧ next.breakpointState = session.breakpointState ∧
      (walk regions thread (room + 1) session (codeWord.setWidth 64) (frameWord.setWidth 64)
        frameSize).1 =
      ⟨none, frameWord.setWidth 64, codeWord.setWidth 64,
        getRegion regions (codeWord.setWidth 64), frameSize⟩ ::
      (walk regions thread room next
        ((wordIn (view session.breakpointState) (frameWord.setWidth 64 + 16)).setWidth 64)
        ((wordIn (view session.breakpointState) (frameWord.setWidth 64 + 12)).setWidth 64)
        nextSize).1 := by
  have wide : ¬frameWord.setWidth 64 = (0 : Address) := nonzero ∘ setWidth_eq_zero_iff.mp
  have lowerHalf : ∀ word : BitVec 32,
      codeWord.setWidth 64 >>> 32 <<< 32 ||| word.setWidth 64 = word.setWidth 64 := by
    intro word
    have upperHalf : codeWord.setWidth 64 >>> 32 = 0#64 := by
      apply BitVec.eq_of_toNat_eq
      simp only [BitVec.toNat_ushiftRight, BitVec.toNat_setWidth, Nat.shiftRight_eq_div_pow,
        BitVec.toNat_ofNat]
      omega
    simp [upperHalf]
  have returnOffset : frameWord.setWidth 64 + BitVec.ofNat 64 12 + 4 =
      frameWord.setWidth 64 + 16 := by
    bv_omega
  refine ⟨session.nextAccess.2.nextAccess.2.nextAccess.2,
    sizeBetween (wordIn (view session.breakpointState) (frameWord.setWidth 64 + 12))
      (frameWord.setWidth 64),
    reads.nextAccess.nextAccess.nextAccess, rfl, ?_⟩
  have pushed := @walk_of_ne_null regions thread
    ⟨session, codeWord.setWidth 64, frameWord.setWidth 64, frameSize, []⟩ wide room
  simp only [iterate, readU32_of_succeed reads, isInteriorPointer_eq_false, if_true,
    readU32_of_succeed reads.nextAccess, readU32_of_succeed reads.nextAccess.nextAccess,
    lowerHalf, returnOffset] at pushed
  rw [pushed]
  rfl

/-! ## The whole walk -/

/-- A frame without its size and link. -/
def summary (frame : MDBStackFrame) : Address × Address × Option MDBCodeRegion :=
  (frame.address, frame.codeAddress, frame.codeRegion)

section Walk

variable {regions : List MDBCodeRegion} {thread : MDBThread} {session : Session}
  {codeWord frameWord : BitVec 32} {room frameSize : Nat}

/-- The first frame of a walk that finds one. -/
theorem walk_head (reads : ReadsSucceed session) {address codeAddress : BitVec 32}
    {region : Option MDBCodeRegion} {tail : List (Address × Address × Option MDBCodeRegion)}
    (walked : (walk regions thread (room + 1) session (codeWord.setWidth 64)
      (frameWord.setWidth 64) frameSize).1.map summary =
        (address.setWidth 64, codeAddress.setWidth 64, region) :: tail) :
    frameWord = address ∧ codeWord = codeAddress := by
  by_cases zero : frameWord = 0
  · subst zero
    simp only [walk_of_null _ _ _ (setWidth_eq_zero_iff.mpr rfl)] at walked
    cases walked
  · rcases walk_succ regions thread reads zero codeWord room frameSize with ⟨_, _, _, _, pushed⟩
    simp only [pushed, List.map_cons, List.cons.injEq] at walked
    have head := walked.1
    simp only [summary, Prod.mk.injEq, setWidth_inj] at head
    exact ⟨head.1, head.2.1⟩

theorem walk_eq_nil_iff (reads : ReadsSucceed session) :
    (walk regions thread (room + 1) session (codeWord.setWidth 64) (frameWord.setWidth 64)
      frameSize).1.map summary = [] ↔ frameWord = 0 := by
  constructor
  · intro ended
    by_contra nonzero
    rcases walk_succ regions thread reads nonzero codeWord room frameSize with ⟨_, _, _, _, pushed⟩
    simp only [pushed] at ended
    cases ended
  · rintro rfl
    rw [walk_of_null _ _ _ (setWidth_eq_zero_iff.mpr rfl)]
    rfl

theorem walk_eq_expected_iff {memory : Memory} (frame : StandardFrame)
    (rest : List StandardFrame) (reads : ReadsSucceed session)
    (same : view session.breakpointState = memory)
    (nonzero : ∀ other ∈ frame :: rest, other.address ≠ 0) (enough : rest.length + 1 < room) :
    (walk regions thread room session (codeWord.setWidth 64) (frame.address.setWidth 64)
        frameSize).1.map summary = expectedFrames regions codeWord (frame :: rest) ↔
      RepeatsAbove memory (frame :: rest) := by
  induction rest generalizing frame session codeWord room frameSize with
  | nil =>
      rcases room with _ | _ | room
      · omega
      · simp only [List.length_nil] at enough
        omega
      · rcases walk_succ regions thread reads (nonzero frame List.mem_cons_self)
          codeWord (room + 1) frameSize with
          ⟨after, nextSize, nextReads, nextState, pushed⟩
        rw [pushed, List.map_cons, expectedFrames, expectedFrames, RepeatsAbove, same,
          List.cons.injEq, ← walk_eq_nil_iff nextReads]
        exact and_iff_right rfl
  | cons next rest ih =>
      rcases room with _ | _ | room
      · omega
      · simp only [List.length_cons] at enough
        omega
      · rcases walk_succ regions thread reads (nonzero frame List.mem_cons_self)
          codeWord (room + 1) frameSize with
          ⟨after, nextSize, nextReads, nextState, pushed⟩
        simp only [pushed, List.map_cons, expectedFrames, RepeatsAbove, same, List.cons.injEq]
        have others := fun other present => nonzero other (List.mem_cons_of_mem frame present)
        have enoughAfter : rest.length + 1 < room + 1 := by
          simp only [List.length_cons] at enough
          omega
        constructor
        · rintro ⟨_, walked⟩
          have found := walk_head nextReads walked
          simp only [found.1, found.2] at walked
          exact ⟨found.1, found.2,
            (ih next nextReads (by rw [nextState, same]) others enoughAfter).mp walked⟩
        · rintro ⟨link, returns, repeats⟩
          simp only [link, returns]
          exact ⟨rfl,
            (ih next nextReads (by rw [nextState, same]) others enoughAfter).mpr repeats⟩

end Walk

theorem summary_link (frames : List MDBStackFrame) :
    (link frames).map summary = frames.map summary := by
  apply List.ext_getElem
  · simp [link]
  · intro i _ _
    simp [link, summary]

/--
The walk recovers a standard chain exactly when the base pointer is not null and
the frames repeat their links and return addresses twelve bytes further up.
-/
theorem updateState_recovers_iff (regions : List MDBCodeRegion) (session : Session)
    (thread : MDBThread) (chain : List StandardFrame) (reads : ReadsSucceed session)
    (standard : StandardChain (view session.breakpointState) thread.state32.ebp chain) :
    Recovers regions thread chain (updateState regions session thread).1 ↔
      thread.state32.ebp ≠ 0 ∧ RepeatsAbove (view session.breakpointState) chain := by
  have starts := standard.starts
  have increasing := standard.increasing
  have short := standard.short
  rcases chain with _ | ⟨frame, rest⟩
  · simp at starts
  · simp only [List.head?_cons, Option.map_some, Option.some.injEq] at starts
    simp only [List.pairwise_cons] at increasing
    simp only [List.length_cons] at short
    change (link (walk regions thread 65 session (thread.state32.eip.setWidth 64)
      (thread.state32.ebp.setWidth 64) 128).1).map summary = _ ↔ _
    simp only [summary_link, ← starts]
    by_cases null : frame.address = 0
    · rw [walk_of_null _ _ _ (setWidth_eq_zero_iff.mpr null)]
      simp [expectedFrames, null]
    · have nonzero : ∀ other ∈ frame :: rest, other.address ≠ 0 := by
        intro other present
        rcases List.mem_cons.mp present with rfl | later
        · exact null
        · have above := increasing.1 other later
          bv_omega
      rw [walk_eq_expected_iff frame rest reads rfl nonzero (by omega), and_iff_right null]

/-! ## A chain of two frames -/

/-- A target whose one thread has two frames with zeros around their words. -/
def twoFrames : Target where
  memory := store (store (fun _ => 0#8) 0x1000#64 (LittleEndian.toBytes 4 0x1010)) 0x1004#64
    (LittleEndian.toBytes 4 0x2000)
  live := [1]
  thread _ := ⟨.state32 { (default : MDBThreadState32) with ebp := 0x1000#32 }, default⟩
  suspendCount := 0
  pidKnown := true

def twoFrameThread : MDBThread :=
  { (default : MDBThread) with state32 := { (default : MDBThreadState32) with ebp := 0x1000#32 } }

def twoFrameChain : List StandardFrame := [⟨0x1000#32, 0x2000#32⟩, ⟨0x1010#32, 0#32⟩]

theorem standardChain_twoFrames :
    StandardChain (view (Session.attached twoFrames []).breakpointState)
      twoFrameThread.state32.ebp twoFrameChain := by
  constructor
  · rfl
  · exact Nat.le_add_left 2 62
  · simp [twoFrameChain]
  · intro frame present
    simp only [twoFrameChain, List.mem_cons, List.not_mem_nil, or_false] at present
    rcases present with rfl | rfl
    · exact Nat.le_add_right _ _
    · exact Nat.le_of_ble_eq_true rfl
  · intro i frame present
    match i, present with
    | 0, rfl => rfl
    | 1, rfl => rfl
  · intro frame present
    simp only [twoFrameChain, List.mem_cons, List.not_mem_nil, or_false] at present
    rcases present with rfl | rfl
    · rfl
    · rfl

theorem updateState_recovers_iff_twoFrames :
    Recovers [] twoFrameThread twoFrameChain
        (updateState [] (Session.attached twoFrames []) twoFrameThread).1 ↔
      twoFrameThread.state32.ebp ≠ 0 ∧
        RepeatsAbove (view (Session.attached twoFrames []).breakpointState) twoFrameChain :=
  updateState_recovers_iff [] (Session.attached twoFrames []) twoFrameThread twoFrameChain
    (fun _ none => absurd none List.not_mem_nil) standardChain_twoFrames

/-- The walk ends after the first of the two frames. -/
theorem updateState_loses_caller :
    StandardChain (view (Session.attached twoFrames []).breakpointState)
        twoFrameThread.state32.ebp twoFrameChain ∧
      ¬Recovers [] twoFrameThread twoFrameChain
        (updateState [] (Session.attached twoFrames []) twoFrameThread).1 := by
  refine ⟨standardChain_twoFrames, ?_⟩
  intro recovers
  have lengths := congrArg List.length recovers
  cases lengths

end MDBStack

end RustDbg
