import RustDbg.Debugger.Turn

/-!
# When the hit of a breakpoint is recognised

`MDBDebugger::findBreakpoint` answers the first breakpoint at an address, enabled or not,
and only then is its flag tested. A thread that has executed the `int3` of an enabled
breakpoint is therefore stepped back iff no disabled breakpoint at the address comes first,
provided that it is seen where it is. If it is stepped back, its next turn begins with
the original instruction, unless another enabled breakpoint lies inside that: the byte of
this one stays in place.
-/

namespace RustDbg.Session

variable {processor : Processor} {start freed stopped session after last : Session}
  {index position : Nat} {thread : MDBThread} {port : ThreadPort} {registers : MDBThreadState32}
  {ref : BreakpointRef} {original : Memory}

/-! ## What is cached after the step back -/

/-- A thread of the table when its turn in the loop of the step back is ended. -/
def steppedBack (session : Session) (thread : MDBThread) : MDBThread :=
  match session.stepBackBreakpoint thread with
  | none => thread
  | some _ => { thread with state32 := { thread.state32 with eip := thread.state32.eip - 1 } }

theorem getElem?_stepBackThread (present : session.process.threads[index]? = some thread) :
    (session.stepBackThread index).process.threads[index]? = some (session.steppedBack thread) := by
  cases decision : session.stepBackBreakpoint thread with
  | none =>
      have turn : session.stepBackThread index = session := by
        simp only [stepBackBreakpoint] at decision
        simp only [stepBackThread, present, decision]
      simp only [turn, present, steppedBack, decision]
  | some ref =>
      simp only [steppedBack, decision, BitVec.sub_eq_add_neg]
      simp only [stepBackBreakpoint] at decision
      simp only [stepBackThread, present, decision]
      exact MDBProcess.getElem?_modify_self present

theorem getElem?_checkForBreakpointsAndStepBack (distinct : session.process.ports.Nodup)
    (present : session.process.threads[index]? = some thread) :
    session.checkForBreakpointsAndStepBack.process.threads[index]? =
      some (session.steppedBack thread) := by
  have turns (count : Nat) (bound : count ≤ session.process.threads.length) :
      TurnsTaken session ((List.range count).foldl stepBackThread session) count ∧
        (index < count → ((List.range count).foldl stepBackThread session).process.threads[index]? =
          some (session.steppedBack thread)) := by
    induction count with
    | zero => exact ⟨⟨rfl, fun _ _ => rfl, by simp, by simp, fun _ _ => rfl⟩, by omega⟩
    | succ count ih =>
        rcases ih (by omega) with ⟨taken, earlier⟩
        have next := List.getElem?_eq_getElem (show count < session.process.threads.length by omega)
        simp only [List.range_succ, List.foldl_append]
        refine ⟨taken.turn distinct next, ?_⟩
        intro before
        have presentNow := taken.later count (Nat.le_refl count)
        simp only [next] at presentNow
        by_cases same : index = count
        · subst same
          simp only [present] at next
          simp only [← next] at presentNow
          have sameDecision : stepBackBreakpoint _ thread = session.stepBackBreakpoint thread :=
            findEnabled_congr (congrArg (·.breakpoints) taken.tables)
              (congrArg (·.transientBreakpoints) taken.tables) _
          refine (getElem?_stepBackThread presentNow).trans ?_
          simp only [steppedBack, sameDecision]
        · apply ((stepBackThread_spec presentNow).2.1 index same).trans
          apply earlier
          omega
  exact (turns _ (Nat.le_refl _)).2 (List.getElem?_eq_some_iff.mp present).1

theorem accesses_checkForBreakpointsAndStepBack (session : Session) :
    session.checkForBreakpointsAndStepBack.accesses = session.accesses := by
  have turn (before : Session) (index : Nat) :
      (before.stepBackThread index).accesses = before.accesses := by
    simp only [stepBackThread]
    split
    · rfl
    · split <;> rfl
  simp only [checkForBreakpointsAndStepBack]
  induction List.range session.process.threads.length generalizing session with
  | nil => rfl
  | cons index rest ih => exact (ih _).trans (turn session index)

/-- A thread that is stepped back has been given what is cached for it. -/
theorem cachedAt_stepBack (distinct : stopped.process.ports.Nodup)
    (present : stopped.process.threads[index]? = some thread)
    (decision : stopped.stepBackBreakpoint thread = some ref)
    (state : stopped.target.threadGetState32 thread.thread = some registers) :
    CachedAt stopped.checkForBreakpointsAndStepBack thread.thread
      { thread.state32 with eip := thread.state32.eip - 1 } := by
  have mem := List.mem_of_getElem? present
  have given := (checkForBreakpointsAndStepBack_thread distinct mem).2
  simp only [registersAfterTurn, decision, state] at given
  have cached := getElem?_checkForBreakpointsAndStepBack distinct present
  simp only [steppedBack, decision] at cached
  have distinctAfter := distinct
  simp only [← (Quiet.checkForBreakpointsAndStepBack stopped).ports] at distinctAfter
  have entry := MDBProcess.entry_eq_of_getElem? distinctAfter cached
  exact ⟨(Target.threadGetState32_eq_some_iff.mp given).2, congrArg (·.state32) entry⟩

/-- After a stop and the step back the loop of `checkForBreakpointsAndStep` can begin. -/
theorem steppable_stepBack (waited : freed.internalWait SIG_TRAP = some (.PRS_STOPPED, stopped))
    (noTransient : freed.transientBreakpoints = []) (accesses : freed.accesses = [])
    (distinct : freed.process.ports.Nodup)
    (wide : ∀ port ∈ stopped.target.live, ∃ registers,
      (stopped.target.thread port).registers = .state32 registers) :
    Steppable stopped.checkForBreakpointsAndStepBack := by
  have settings := SameSettings.internalWait waited
  have distinct := settings.process.distinct distinct
  have quiet := Quiet.checkForBreakpointsAndStepBack stopped
  have tables := (turnsTaken_checkForBreakpointsAndStepBack distinct).tables
  refine ⟨?_, ?_, quiet.ports ▸ distinct, ?_, ?_⟩
  · exact (congrArg (·.transientBreakpoints) tables).trans
      (settings.transientBreakpoints.trans noTransient)
  · simp only [accesses_checkForBreakpointsAndStepBack, settings.accesses, accesses]
  · intro port live
    simp only [quiet.live] at live
    rw [quiet.ports]
    exact listed_of_stopped waited live
  · intro port live
    simp only [quiet.live] at live
    rcases wide port live with ⟨registers, current⟩
    have state := Target.threadGetState32_eq_some_iff.mpr ⟨live, current⟩
    rcases List.mem_map.mp (listed_of_stopped waited live) with ⟨thread, mem, rfl⟩
    have given := (checkForBreakpointsAndStepBack_thread distinct mem).2
    cases decision : stopped.stepBackBreakpoint thread with
    | none =>
        simp only [registersAfterTurn, decision, state] at given
        exact ⟨_, (Target.threadGetState32_eq_some_iff.mp given).2⟩
    | some ref =>
        simp only [registersAfterTurn, decision, state] at given
        exact ⟨_, (Target.threadGetState32_eq_some_iff.mp given).2⟩

/-! ## The first turn of a thread -/

/-- A turn in which the thread executes the instruction where it stands, unpatched. -/
structure Turn.Executes (processor : Processor) (breakpoints : List MDBBreakpoint)
    (registers : MDBThreadState32) (turn : Turn) : Prop where
  singleSteps : turn.prepared.target.SingleSteps turn.port (registers.withTrapFlag true)
  executed : ∃ registers', processor.Executed turn.port (registers.withTrapFlag true) registers'
    turn.prepared.target turn.stopped.target
  fetched : ∀ breakpoint ∈ breakpoints, breakpoint.enabled = true →
    breakpoint.address = registers.pc →
      turn.prepared.target.memory registers.pc = breakpoint.patch

/-- A turn is the first of some turns that a thread takes, with other turns in front of it. -/
structure FirstTurn (turns : List Turn) (port : ThreadPort) (front : List Turn) (turn : Turn) :
    Prop where
  split : ∃ back, turns = front ++ turn :: back
  own : turn.port = port
  others : ∀ earlier ∈ front, earlier.port ≠ port

theorem FirstTurn.find {turns front : List Turn} {turn : Turn}
    (first : FirstTurn turns port front turn) :
    turns.find? (·.port == port) = some turn := by
  rcases first.split with ⟨back, rfl⟩
  have none : front.find? (·.port == port) = none := by
    rw [List.find?_eq_none]
    intro earlier mem
    simpa using first.others earlier mem
  rw [List.find?_append, none, Option.none_or, List.find?_cons_of_pos (by simp [first.own])]

/--
A thread that stands at a breakpoint found enabled gets a turn in the loop, in which it
executes the unpatched instruction, and it executes nothing in the turns before.
-/
theorem exists_turn_of_findEnabled (steppable : Steppable session)
    (agree : BreakpointState.PatchesAgree session.breakpoints) (live : port ∈ session.target.live)
    (cachedAt : CachedAt session port registers)
    (found : session.findEnabled registers.pc = some ref)
    (listed : session.process.ports[position]? = some port) (ahead : index ≤ position)
    {turns : List Turn} (run : TakesTurns processor session index turns last) :
    ∃ front turn, FirstTurn turns port front turn ∧
      (∀ earlier ∈ front, earlier.prepared.target.threadSuspendCount port ≠ 0) ∧
      turn.Executes processor session.breakpoints registers := by
  induction run generalizing ref with
  | @done session index outside =>
      have bound := (List.getElem?_eq_some_iff.mp listed).1
      simp only [MDBProcess.ports, List.length_map] at bound
      omega
  | @pass session last index thread turns present clear rest ih =>
      apply ih steppable agree live cachedAt found listed
      apply Nat.succ_le_of_lt
      apply Nat.lt_of_le_of_ne ahead
      rintro rfl
      have own : thread.thread = port := by
        simpa [MDBProcess.ports, present] using listed
      subst own
      have entry := MDBProcess.entry_eq_of_getElem? steppable.distinct present
      rw [← entry, cachedAt.cached, found] at clear
      cases clear
  | @turn session prepared stopped last index thread first turns present foundHere preparation
      waited stops rest ih =>
      rcases turn_effect steppable agree present foundHere preparation waited stops with
        ⟨threadLive, ready, unpatched, ended, registers', executed, -⟩
      have entry := MDBProcess.entry_eq_of_getElem? steppable.distinct present
      by_cases own : thread.thread = port
      · subst own
        have cached : thread.state32 = registers := by
          simp only [← cachedAt.cached, entry]
        subst cached
        exact ⟨[], _, ⟨⟨turns, rfl⟩, rfl, by simp⟩, by simp, ready.singleSteps,
          ⟨registers', executed⟩, unpatched.fetched⟩
      · have different : port ≠ thread.thread := fun same => own same.symm
        have transients : Session.transientBreakpoints _ = session.transientBreakpoints :=
          ended.steppable.noTransient.trans steppable.noTransient.symm
        have listedNext : ((stopped.enableSingleStep index false).enable first
            true).process.ports[position]? = some port := by
          rcases ended.ports with ⟨new, grown⟩
          simp only [← grown, List.getElem?_append_left (List.getElem?_eq_some_iff.mp listed).1]
          exact listed
        have aheadNext : index + 1 ≤ position := by
          apply Nat.succ_le_of_lt
          apply Nat.lt_of_le_of_ne ahead
          rintro rfl
          apply own
          simpa [MDBProcess.ports, present] using listed
        rcases ih ended.steppable (ended.breakpoints ▸ agree) (ended.live ▸ live)
          (ended.caches port registers different live cachedAt)
          ((findEnabled_congr ended.breakpoints transients _).trans found) listedNext aheadNext with
          ⟨front, turn, firstTurn, waiting, executes⟩
        rcases firstTurn.split with ⟨back, rfl⟩
        have others : ∀ earlier ∈ (⟨thread.thread, prepared, stopped⟩ : Turn) :: front,
            earlier.port ≠ port := by
          rw [List.forall_mem_cons]
          exact ⟨own, firstTurn.others⟩
        refine ⟨_ :: front, turn, ⟨⟨back, rfl⟩, firstTurn.own, others⟩, ?_,
          ended.breakpoints ▸ executes⟩
        intro earlier mem
        rcases List.mem_cons.mp mem with rfl | later
        · intro runnable
          have liveNow : port ∈ prepared.target.live := by
            rw [(quiet_of_preparation preparation).live]
            exact live
          apply different
          exact (ready.singleSteps.alone port liveNow).mp runnable
        · exact waiting earlier later

/-! ## Recognition -/

/-- The thread is back at the address, and an enabled breakpoint there has been reported for it. -/
structure Recognises (stopped after : Session) (port : ThreadPort) (address : BitVec 32) :
    Prop where
  counter : after.programCounter port = some address
  reached : ∃ ref breakpoint, ref ∈ stopped.callbacksSince after port ∧
    after.breakpointState.deref ref = some breakpoint ∧ breakpoint.enabled = true ∧
    breakpoint.address = address.setWidth 64

/-- Wherever a breakpoint is in the instruction executed in the turn, the byte is the original. -/
def Turn.FetchesOriginal (processor : Processor) (original : Memory)
    (breakpoints : List MDBBreakpoint) (turn : Turn) : Prop :=
  ∀ registers, (turn.prepared.target.thread turn.port).registers = .state32 registers →
    turn.prepared.target.memory registers.pc = original registers.pc ∧
    ∀ breakpoint ∈ breakpoints, breakpoint.enabled = true → ∀ offset,
      offset < processor.instructionLength ⟨registers, turn.prepared.target.memory⟩ →
        breakpoint.address = registers.pc + BitVec.ofNat 64 offset →
          turn.prepared.target.memory breakpoint.address = original breakpoint.address

/--
However the loop of `checkForBreakpointsAndStep` goes on, the next instruction that the
thread executes is the original one at the address.
-/
def ExecutesOriginal (processor : Processor) (original : Memory) (after : Session)
    (port : ThreadPort) (address : BitVec 32) : Prop :=
  ∀ turns last, TakesTurns processor after 0 turns last →
    ∃ front turn registers, FirstTurn turns port front turn ∧
      (∀ earlier ∈ front, earlier.prepared.target.threadSuspendCount port ≠ 0) ∧
      registers.eip = address ∧ turn.Executes processor after.breakpoints registers ∧
      turn.FetchesOriginal processor original after.breakpoints

/--
However the loop goes on, in the first turn of the thread memory has the saved byte of each
enabled breakpoint that lies inside the instruction, behind its first byte.
-/
def FindsRestSaved (processor : Processor) (after : Session) (port : ThreadPort) : Prop :=
  ∀ turns last front turn, TakesTurns processor after 0 turns last →
    FirstTurn turns port front turn → turn.FetchesSavedBehind processor after.breakpoints

theorem fetchesOriginal_iff {breakpoints : List MDBBreakpoint} {turn : Turn}
    (executes : turn.Executes processor breakpoints registers)
    (saved : ∀ breakpoint ∈ breakpoints, breakpoint.enabled = true →
      breakpoint.patch = original breakpoint.address)
    (here : ∃ breakpoint ∈ breakpoints, breakpoint.enabled = true ∧
      breakpoint.address = registers.pc) :
    turn.FetchesOriginal processor original breakpoints ↔
      turn.FetchesSavedBehind processor breakpoints := by
  have current := executes.singleSteps.current
  constructor
  · intro fetches fetching currentNow breakpoint mem enabled offset _ within inside
    rw [saved breakpoint mem enabled]
    exact (fetches fetching currentNow).2 breakpoint mem enabled offset within inside
  · intro behind fetching currentNow
    have whole := behind.fetchesSaved current executes.fetched fetching currentNow
    simp only [current, RegisterFile.state32.injEq] at currentNow
    subst currentNow
    constructor
    · rcases here with ⟨breakpoint, mem, enabled, at_pc⟩
      apply (executes.fetched breakpoint mem enabled at_pc).trans
      rw [saved breakpoint mem enabled, at_pc]
      rfl
    · intro breakpoint mem enabled offset within inside
      rw [← saved breakpoint mem enabled]
      exact whole breakpoint mem enabled offset within inside

/-- The first breakpoint at the address is enabled. -/
def FirstEnabled (breakpoints : List MDBBreakpoint) (address : Address) : Prop :=
  ∃ breakpoint, breakpoints.find? (·.address == address) = some breakpoint ∧
    breakpoint.enabled = true

theorem findEnabled_iff_firstEnabled (noTransient : session.transientBreakpoints = [])
    (address : Address) :
    (∃ ref, session.findEnabled address = some ref) ↔
      FirstEnabled session.breakpoints address := by
  simp only [FirstEnabled, List.find?_eq_bind_findIdx?_getElem?]
  have transients : session.breakpointState.transientBreakpoints = [] := noTransient
  simp only [findEnabled, BreakpointState.findBreakpoint, transients, List.findIdx?_nil,
    Option.map_none]
  cases first : session.breakpointState.breakpoints.findIdx? (·.address == address) with
  | none =>
      have first : session.breakpoints.findIdx? (·.address == address) = none := first
      simp [first]
  | some position =>
      have located : session.breakpoints.findIdx? (·.address == address) = some position := first
      simp [located, BreakpointState.deref, breakpointState, Option.any_eq_true]

theorem recognises_iff (distinct : stopped.process.ports.Nodup)
    (mem : thread ∈ stopped.process.threads) {address : BitVec 32}
    (stands : stopped.programCounter thread.thread = some (address + 1)) :
    Recognises stopped stopped.checkForBreakpointsAndStepBack thread.thread address ↔
      thread.state32.eip = address + 1 ∧
        ∃ ref, stopped.findEnabled (address.setWidth 64) = some ref := by
  rcases stepBack_thread_iff distinct mem with ⟨-, stays, moves⟩
  have tables := (turnsTaken_checkForBreakpointsAndStepBack distinct).tables
  constructor
  · rintro ⟨counter, -⟩
    cases decision : stopped.stepBackBreakpoint thread with
    | none =>
        simp only [stays decision, stands, Option.some.injEq] at counter
        apply absurd counter
        bv_omega
    | some ref =>
        simp only [(moves ref decision).2, stands, Option.map_some, Option.some.injEq] at counter
        have seen : thread.state32.eip = address + 1 := by
          simp only [← counter, BitVec.sub_add_cancel]
        simp only [stepBackBreakpoint, counter] at decision
        exact ⟨seen, ref, decision⟩
  · rintro ⟨seen, ref, found⟩
    have decision : stopped.stepBackBreakpoint thread = some ref := by
      simp only [stepBackBreakpoint, seen, BitVec.add_sub_cancel, found]
    rcases moves ref decision with ⟨callbacks, counter⟩
    constructor
    · simp only [counter, stands, seen, BitVec.add_sub_cancel, Option.map_some]
    · rcases deref_of_findEnabled found with ⟨breakpoint, pointed, enabled, here⟩
      refine ⟨ref, breakpoint, ?_, ?_, enabled, here⟩
      · rw [callbacks]
        exact List.mem_singleton_self ref
      · rw [tables]
        exact pointed

theorem executesOriginal_iff_of_stepBack
    (waited : freed.internalWait SIG_TRAP = some (.PRS_STOPPED, stopped))
    (noTransient : freed.transientBreakpoints = []) (accesses : freed.accesses = [])
    (distinct : freed.process.ports.Nodup)
    (wide : ∀ port ∈ stopped.target.live, ∃ registers,
      (stopped.target.thread port).registers = .state32 registers)
    (saved : ∀ breakpoint ∈ freed.breakpoints, breakpoint.enabled = true →
      breakpoint.patch = original breakpoint.address)
    (present : stopped.process.threads[index]? = some thread)
    (live : thread.thread ∈ stopped.target.live) {address : BitVec 32}
    (seen : thread.state32.eip = address + 1)
    (found : stopped.findEnabled (address.setWidth 64) = some ref) :
    ExecutesOriginal processor original stopped.checkForBreakpointsAndStepBack thread.thread
        address ↔
      FindsRestSaved processor stopped.checkForBreakpointsAndStepBack thread.thread := by
  have settings := SameSettings.internalWait waited
  have steppable := steppable_stepBack waited noTransient accesses distinct wide
  have table := settings.process.distinct distinct
  have quiet := Quiet.checkForBreakpointsAndStepBack stopped
  have tables := (turnsTaken_checkForBreakpointsAndStepBack table).tables
  have breakpoints : stopped.checkForBreakpointsAndStepBack.breakpoints = freed.breakpoints :=
    (congrArg (·.breakpoints) tables).trans settings.breakpoints
  have agree : BreakpointState.PatchesAgree
      stopped.checkForBreakpointsAndStepBack.breakpoints := by
    rw [breakpoints]
    intro first firstMem second secondMem firstEnabled secondEnabled shared
    simp only [saved first firstMem firstEnabled, saved second secondMem secondEnabled, shared]
  rcases wide thread.thread live with ⟨current, currentState⟩
  have decision : stopped.stepBackBreakpoint thread = some ref := by
    simp only [stepBackBreakpoint, seen, BitVec.add_sub_cancel, found]
  have cachedAt := cachedAt_stepBack table present decision
    (Target.threadGetState32_eq_some_iff.mpr ⟨live, currentState⟩)
  have counter : thread.state32.eip - 1 = address := by
    simp only [seen, BitVec.add_sub_cancel]
  simp only [counter] at cachedAt
  have foundNow : stopped.checkForBreakpointsAndStepBack.findEnabled (address.setWidth 64) =
      some ref :=
    (findEnabled_congr (congrArg (·.breakpoints) tables)
      (congrArg (·.transientBreakpoints) tables) _).trans found
  have listed : stopped.checkForBreakpointsAndStepBack.process.ports[index]? =
      some thread.thread := by
    rw [quiet.ports, MDBProcess.ports, List.getElem?_map, present]
    rfl
  rcases exists_of_findEnabled steppable.noTransient foundNow with
    ⟨_, breakpoint, _, located, enabled, here⟩
  have mem := List.mem_of_getElem? located
  have savedNow : ∀ breakpoint ∈ stopped.checkForBreakpointsAndStepBack.breakpoints,
      breakpoint.enabled = true → breakpoint.patch = original breakpoint.address := by
    rw [breakpoints]
    exact saved
  have firstTurn {turns : List Turn} {last : Session} (run : TakesTurns processor _ 0 turns last) :=
    exists_turn_of_findEnabled steppable agree (quiet.live ▸ live) cachedAt foundNow listed
      (Nat.zero_le index) run
  constructor
  · intro executesOriginal turns last front turn run first
    rcases firstTurn run with ⟨_, own, firstOwn, -, executes⟩
    rcases executesOriginal turns last run with ⟨_, same, _, firstSame, -, -, -, original⟩
    obtain rfl : own = turn := Option.some.inj (firstOwn.find.symm.trans first.find)
    obtain rfl : same = own := Option.some.inj (firstSame.find.symm.trans first.find)
    exact (fetchesOriginal_iff executes savedNow ⟨breakpoint, mem, enabled, here⟩).mp original
  · intro findsRest turns last run
    rcases firstTurn run with ⟨front, turn, first, waiting, executes⟩
    refine ⟨front, turn, _, first, waiting, rfl, executes, ?_⟩
    apply (fetchesOriginal_iff executes savedNow ⟨breakpoint, mem, enabled, here⟩).mpr
    exact findsRest turns last front turn run first

/-- Two breakpoints at `0x1000`, of which the one created later is enabled. -/
def shadowing : List BreakpointCall :=
  [.createBreakpoint 0x1000#64 none 0#8, .createBreakpoint 0x1000#64 none 0#8,
    .enable (.regular 1) true]

def shadowingTable : List MDBBreakpoint :=
  [⟨0x1000#64, 0#8, false, none⟩, ⟨0x1000#64, 0x90#8, true, none⟩]

def attachedShadowed : Session := { attachedBehind false with breakpoints := shadowingTable }

def freedShadowed : Session := attachedShadowed.machResumeThreadsAndTask

def stoppedShadowed : Session :=
  (freedShadowed.report [] (firstThreadHits freedShadowed.target)
    (.stopped SIG_TRAP none)).gatherThreads.noteReturn .PRS_STOPPED

theorem run_shadowing : ∃ state,
    Transition.run (BreakpointState.perform .success) (.initial fun _ => 0x90#8) shadowing =
      some state ∧ shadowingTable = state.breakpoints := by
  refine ⟨_, rfl, ?_⟩
  decide

theorem resumeToWait_attachedShadowed :
    attachedShadowed.resumeToWait = some freedShadowed := by
  have clear : ∀ thread ∈ attachedShadowed.process.threads,
      attachedShadowed.findEnabled thread.state32.pc = none := by
    decide
  simp only [resumeToWait, checkForBreakpointsAndStep, stepOffFrom_eq_self clear]
  rfl

theorem internalWait_freedShadowed :
    freedShadowed.internalWait SIG_TRAP = some (.PRS_STOPPED, stoppedShadowed) := by
  rfl

theorem hitsAt_firstThreadHits {armed : Address → Prop} {target : Target}
    (live : 1 ∈ target.live)
    (current : (target.thread 1).registers = .state32 (registersAt 0xFFF#32))
    (plain : target.memory 0xFFF#64 ≠ int_3) (armedHere : armed 0x1000#64)
    (patched : target.memory 0x1000#64 = int_3) :
    HitsAt armed target (firstThreadHits target) 1 0x1000#32 := by
  rcases schedule_firstThreadArrives live current plain with ⟨_, rfl, arrives, stillLive, moved⟩
  exact ⟨_, [], [1], registersAt 0x1000#32, arrives, stillLive, List.not_mem_nil, moved, rfl,
    armedHere, patched, .refl⟩

theorem hitsAt_shadowed : HitsAt freedShadowed.EnabledAt freedShadowed.target
    stoppedShadowed.target 1 0x1000#32 := by
  have armed : freedShadowed.EnabledAt 0x1000#64 :=
    ⟨.regular 1, ⟨0x1000#64, 0x90#8, true, none⟩, rfl, rfl, rfl⟩
  apply hitsAt_firstThreadHits (by decide) rfl (by decide) armed
  decide

/-- Each instruction has one byte and does nothing. -/
def nops : Processor where
  executes before after := after = { before with
    registers := { before.registers with eip := before.registers.eip + 1 } }
  instructionLength _ := 1

def stepNop (target : Target) : Target :=
  target.setRegisters 1 ((registersAt 0x1001#32).withTrapFlag true)

/-- The first thread steps off the breakpoint at `0x1000`. -/
theorem stops_stepNop (live : 1 ∈ prepared.target.live)
    (runnable : prepared.target.threadSuspendCount 1 = 0)
    (current : (prepared.target.thread 1).registers =
      .state32 ((registersAt 0x1000#32).withTrapFlag true))
    (stepped : stopped.target = stepNop prepared.target) : nops.Stops prepared stopped := by
  have memory : stopped.target.memory = prepared.target.memory := by
    rw [stepped]
    exact Target.memory_modifyThread ..
  have sameLive : stopped.target.live = prepared.target.live := by
    rw [stepped]
    exact Target.live_modifyThread ..
  refine ⟨⟨1, live, runnable⟩, ?_, fun _ _ => congrFun memory _⟩
  intro port registers steps
  obtain rfl : 1 = port := (steps.alone 1 live).mp runnable
  have own := steps.current
  simp only [current, RegisterFile.state32.injEq] at own
  subst own
  refine ⟨(registersAt 0x1001#32).withTrapFlag true, sameLive, ?_, ?_, ?_⟩
  · rw [stepped]
    exact Target.registers_setRegisters live _ 1
  · rw [memory]
    rfl
  · intro other different
    rw [stepped]
    apply (Target.registers_setRegisters live _ other).trans
    exact if_neg different

/-- One thread is about to run into the breakpoint at `0x1000`, the other is at `0x2000`. -/
def attachedAhead : Session :=
  { attached
      { standingBehind with
        thread := fun port =>
          ⟨.state32 (registersAt (if port = 1 then 0xFFF#32 else 0x2000#32)), ⟨.running, 0⟩⟩ }
      [fun target => some (firstThreadHits target, .stopped SIG_TRAP none),
        fun target => some (stepNop target, .stopped SIG_TRAP none)] with
    breakpoints := [⟨0x1000#64, 0x90#8, true, none⟩]
    process := {
      running := true
      is64Bit := false
      threads := [⟨1, ⟨.running, 0⟩, registersAt 0xFFF#32, default⟩,
        ⟨2, ⟨.running, 0⟩, registersAt 0x2000#32, default⟩]
      uninitialized := fun _ => default } }

def freedAhead : Session := attachedAhead.machResumeThreadsAndTask

def stoppedAhead : Session :=
  (freedAhead.report (freedAhead.events.drop 1) (firstThreadHits freedAhead.target)
    (.stopped SIG_TRAP none)).gatherThreads.noteReturn .PRS_STOPPED

def preparedAhead : Session :=
  (stoppedAhead.checkForBreakpointsAndStepBack.disable (.regular 0)).singleStepToWait 0

def steppedAhead : Session :=
  (preparedAhead.report [] (stepNop preparedAhead.target)
    (.stopped SIG_TRAP none)).gatherThreads.noteReturn .PRS_STOPPED

theorem resumeToWait_attachedAhead : attachedAhead.resumeToWait = some freedAhead := by
  have clear : ∀ thread ∈ attachedAhead.process.threads,
      attachedAhead.findEnabled thread.state32.pc = none := by
    decide
  simp only [resumeToWait, checkForBreakpointsAndStep, stepOffFrom_eq_self clear]
  rfl

theorem takesTurns_stoppedAhead :
    TakesTurns nops stoppedAhead.checkForBreakpointsAndStepBack 0
      [⟨1, preparedAhead, steppedAhead⟩]
      ((steppedAhead.enableSingleStep 0 false).enable (.regular 0) true) := by
  have stops : nops.Stops preparedAhead steppedAhead :=
    stops_stepNop (by decide) (by decide) rfl rfl
  have first : stoppedAhead.checkForBreakpointsAndStepBack.process.threads[0]? =
      some ⟨1, ⟨.running, 0⟩, registersAt 0x1000#32, default⟩ := rfl
  refine .turn first rfl rfl rfl stops ?_
  have second : ((steppedAhead.enableSingleStep 0 false).enable (.regular 0)
      true).process.threads[1]? = some ⟨2, ⟨.running, 1⟩, registersAt 0x2000#32, default⟩ := rfl
  refine .pass second rfl ?_
  exact .done (by decide)

end RustDbg.Session
