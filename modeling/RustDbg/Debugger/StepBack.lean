import RustDbg.Breakpoint.Find
import RustDbg.Debugger.Course
import RustDbg.Debugger.Schedule

/-!
# Stepping back from breakpoints

After a stop `resume` steps a thread back when an enabled breakpoint is one byte before
the program counter the debugger has cached for it. The cache may be out of date, and
a thread may stand behind a breakpoint it has not executed, and of several breakpoints
with one address the debugger looks at the first only, be it enabled or not; the threads
stepped back are those that have hit iff none of this is the case.
-/

namespace RustDbg.Session

variable {session freed stopped after : Session} {address : Address} {ref : BreakpointRef}
  {port other : ThreadPort} {count : Nat}

def EnabledAt (session : Session) (address : Address) : Prop :=
  session.breakpointState.EnabledAt address

theorem deref_of_findEnabled (found : session.findEnabled address = some ref) :
    ∃ breakpoint, session.breakpointState.deref ref = some breakpoint ∧
      breakpoint.enabled = true ∧ breakpoint.address = address := by
  simp only [findEnabled] at found
  split at found
  · simp at found
  · rename_i first located
    split at found
    · rename_i enabled
      rcases BreakpointState.deref_findBreakpoint located with ⟨breakpoint, pointed, here⟩
      rcases Option.some.inj found with rfl
      exact ⟨breakpoint, pointed, by simpa [pointed] using enabled, here⟩
    · simp at found

theorem enabledAt_of_findEnabled (found : session.findEnabled address = some ref) :
    session.EnabledAt address :=
  ⟨ref, deref_of_findEnabled found⟩

/-! ## The loop -/

/-- The breakpoint because of which a thread of the table is stepped back. -/
def stepBackBreakpoint (session : Session) (thread : MDBThread) : Option BreakpointRef :=
  session.findEnabled ((thread.state32.eip - 1).setWidth 64)

/-- The registers of a thread of the table when its turn in the loop is over. -/
def registersAfterTurn (session : Session) (thread : MDBThread) : Option MDBThreadState32 :=
  match session.stepBackBreakpoint thread with
  | none => session.target.threadGetState32 thread.thread
  | some _ =>
      (session.target.threadGetState32 thread.thread).map fun _ =>
        { thread.state32 with eip := thread.state32.eip - 1 }

def callbacksOfTurn (session : Session) (thread : MDBThread) : List (ThreadPort × BreakpointRef) :=
  (session.stepBackBreakpoint thread).toList.map fun ref => (thread.thread, ref)

/-- The loop has been through the first `count` threads of the table. -/
structure TurnsTaken (before after : Session) (count : Nat) : Prop where
  tables : after.breakpointState = before.breakpointState
  later : ∀ index, count ≤ index → after.process.threads[index]? = before.process.threads[index]?
  reached : after.reached =
    before.reached ++ (before.process.threads.take count).flatMap before.callbacksOfTurn
  taken : ∀ thread ∈ before.process.threads.take count,
    after.target.threadGetState32 thread.thread = before.registersAfterTurn thread
  waiting : ∀ port, port ∉ (before.process.threads.take count).map (·.thread) →
    after.target.threadGetState32 port = before.target.threadGetState32 port

theorem threadGetState32_congr {first second : Target} (live : second.live = first.live)
    (registers : (second.thread port).registers = (first.thread port).registers) :
    second.threadGetState32 port = first.threadGetState32 port := by
  simp only [Target.threadGetState32, live, registers]

theorem threadGetState32_threadSetState32 (target : Target) (port : ThreadPort)
    (registers : MDBThreadState32) (other : ThreadPort) :
    (target.threadSetState32 port registers).threadGetState32 other =
      if other = port then (target.threadGetState32 port).map fun _ => registers
      else target.threadGetState32 other := by
  have sameLive : (target.threadSetState32 port registers).live = target.live :=
    Target.live_modifyThread ..
  simp only [Target.threadGetState32, sameLive]
  by_cases same : other = port
  · subst same
    by_cases live : other ∈ target.live
    · rw [Target.registers_threadSetState32 live]
      simp only [live, if_true]
      cases (target.thread other).registers <;> rfl
    · simp [live]
  · simp only [Target.threadSetState32, Target.thread_modifyThread_of_ne _ same, if_neg same]

theorem findEnabled_congr {first second : Session}
    (breakpoints : second.breakpoints = first.breakpoints)
    (transientBreakpoints : second.transientBreakpoints = first.transientBreakpoints)
    (address : Address) : second.findEnabled address = first.findEnabled address := by
  have deref (ref : BreakpointRef) :
      second.breakpointState.deref ref = first.breakpointState.deref ref := by
    cases ref <;> simp [BreakpointState.deref, breakpointState, breakpoints, transientBreakpoints]
  simp only [findEnabled, BreakpointState.findBreakpoint, deref]
  simp only [breakpointState, breakpoints, transientBreakpoints]

theorem stepBackThread_spec {index : Nat} {thread : MDBThread}
    (present : session.process.threads[index]? = some thread) :
    (session.stepBackThread index).breakpointState = session.breakpointState ∧
      (∀ position, position ≠ index → (session.stepBackThread index).process.threads[position]? =
        session.process.threads[position]?) ∧
      (session.stepBackThread index).reached =
        session.reached ++ session.callbacksOfTurn thread ∧
      (session.stepBackThread index).target.threadGetState32 thread.thread =
        session.registersAfterTurn thread ∧
      ∀ port, port ≠ thread.thread → (session.stepBackThread index).target.threadGetState32 port =
        session.target.threadGetState32 port := by
  cases decision : session.stepBackBreakpoint thread with
  | none =>
      have turn : session.stepBackThread index = session := by
        simp only [stepBackBreakpoint] at decision
        simp only [stepBackThread, present, decision]
      rw [turn]
      simp [callbacksOfTurn, registersAfterTurn, decision]
  | some ref =>
      have turn : session.stepBackThread index =
          (session.onBreakpointReached thread.thread ref).updateInstructionPointerAndCommitState
            index (-1) := by
        simp only [stepBackBreakpoint] at decision
        simp only [stepBackThread, present, decision]
      have target_eq : (session.stepBackThread index).target =
          session.target.threadSetState32 thread.thread
            { thread.state32 with eip := thread.state32.eip - 1 } := by
        simp only [turn, BitVec.sub_eq_add_neg]
        simp [updateInstructionPointerAndCommitState,
          MDBProcess.updateInstructionPointerAndCommitState, MDBProcess.machCommitThread,
          onBreakpointReached, present]
      refine ⟨?_, ?_, ?_, ?_, ?_⟩
      · have memory : (session.stepBackThread index).target.memory = session.target.memory := by
          rw [target_eq]
          exact Target.memory_modifyThread ..
        simp only [turn] at memory ⊢
        simp only [breakpointState, memory]
        rfl
      · intro position different
        rw [turn]
        exact List.getElem?_modify_ne _ _ different.symm
      · simp only [turn, callbacksOfTurn, decision]
        rfl
      · rw [target_eq, threadGetState32_threadSetState32, if_pos rfl, registersAfterTurn, decision]
      · intro port different
        simp only [target_eq, threadGetState32_threadSetState32, if_neg different]

theorem turn_congr {first second : Session} {thread : MDBThread}
    (tables : second.breakpointState = first.breakpointState)
    (registers : second.target.threadGetState32 thread.thread =
      first.target.threadGetState32 thread.thread) :
    second.callbacksOfTurn thread = first.callbacksOfTurn thread ∧
      second.registersAfterTurn thread = first.registersAfterTurn thread := by
  have decision : second.stepBackBreakpoint thread = first.stepBackBreakpoint thread :=
    findEnabled_congr (congrArg (·.breakpoints) tables)
      (congrArg (·.transientBreakpoints) tables) _
  simp only [callbacksOfTurn, registersAfterTurn, decision, registers, and_self]

theorem TurnsTaken.turn (distinct : session.process.ports.Nodup)
    (turns : TurnsTaken session after count) {thread : MDBThread}
    (present : session.process.threads[count]? = some thread) :
    TurnsTaken session (after.stepBackThread count) (count + 1) := by
  have take_eq : session.process.threads.take (count + 1) =
      session.process.threads.take count ++ [thread] := by
    simp only [List.take_add_one, present, Option.toList_some]
  have fresh : thread.thread ∉ (session.process.threads.take count).map (·.thread) := by
    have taken : (session.process.threads.take (count + 1)).map (·.thread) <+:
        session.process.ports := (List.take_prefix _ _).map _
    have nodup := distinct.sublist taken.sublist
    simp only [take_eq, List.map_append, List.nodup_append] at nodup
    intro mem
    exact nodup.2.2 _ mem _ (by simp) rfl
  have presentNow : after.process.threads[count]? = some thread := by
    simp only [turns.later count (Nat.le_refl count), present]
  rcases stepBackThread_spec presentNow with ⟨tables, threads, reached, own, others⟩
  rcases turn_congr turns.tables (turns.waiting _ fresh) with ⟨callbacks, registers⟩
  constructor
  · exact tables.trans turns.tables
  · intro index later
    simp only [threads index (by omega), turns.later index (by omega)]
  · simp only [reached, turns.reached, callbacks, take_eq, List.flatMap_append, List.append_assoc]
    simp
  · intro other mem
    simp only [take_eq] at mem
    rcases List.mem_append.mp mem with earlier | last
    · have different : other.thread ≠ thread.thread := by
        intro same
        exact fresh (same ▸ List.mem_map_of_mem earlier)
      simp only [others other.thread different, turns.taken other earlier]
    · rcases List.mem_singleton.mp last with rfl
      simp only [own, registers]
  · intro port absent
    simp only [take_eq, List.map_append, List.mem_append, not_or] at absent
    simp only [others port (by simpa using absent.2), turns.waiting port absent.1]

/-- After the loop every thread of the table has had its turn. -/
theorem turnsTaken_checkForBreakpointsAndStepBack (distinct : session.process.ports.Nodup) :
    TurnsTaken session session.checkForBreakpointsAndStepBack session.process.threads.length := by
  have turns (count : Nat) (bound : count ≤ session.process.threads.length) :
      TurnsTaken session ((List.range count).foldl stepBackThread session) count := by
    induction count with
    | zero => exact ⟨rfl, fun _ _ => rfl, by simp, by simp, fun _ _ => rfl⟩
    | succ count ih =>
        simp only [List.range_succ, List.foldl_append]
        apply (ih (by omega)).turn distinct
        exact List.getElem?_eq_getElem bound
  apply turns _
  exact Nat.le_refl _

/-! ## What becomes of a thread -/

/-- The breakpoints whose callbacks have been run for a thread since `before`. -/
def callbacksSince (before after : Session) (port : ThreadPort) : List BreakpointRef :=
  ((after.reached.drop before.reached.length).filter (·.1 == port)).map (·.2)

/-- The program counter of a live 32-bit thread. -/
def programCounter (session : Session) (port : ThreadPort) : Option (BitVec 32) :=
  (session.target.threadGetState32 port).map (·.eip)

theorem programCounter_eq {registers : MDBThreadState32} (live : port ∈ session.target.live)
    (current : (session.target.thread port).registers = .state32 registers) :
    session.programCounter port = some registers.eip := by
  rw [programCounter, Target.threadGetState32_eq_some_iff.mpr ⟨live, current⟩, Option.map_some]

theorem programCounter_of_hitsAt {armed : Address → Prop} {before : Target}
    {address : BitVec 32} (hits : HitsAt armed before stopped.target port address) :
    stopped.programCounter port = some (address + 1) := by
  rcases hits.stands with ⟨live, registers, current, eip⟩
  rw [programCounter_eq live current, eip]

theorem filter_flatMap_callbacks {threads : List MDBThread}
    (distinct : (threads.map (·.thread)).Nodup) {thread : MDBThread} (mem : thread ∈ threads) :
    (threads.flatMap session.callbacksOfTurn).filter (·.1 == thread.thread) =
      session.callbacksOfTurn thread := by
  have own (other : MDBThread) (different : other.thread ≠ thread.thread) :
      (session.callbacksOfTurn other).filter (·.1 == thread.thread) = [] := by
    simp [callbacksOfTurn, different]
  induction threads with
  | nil => simp at mem
  | cons head rest ih =>
      simp only [List.map_cons, List.nodup_cons] at distinct
      simp only [List.flatMap_cons, List.filter_append]
      rcases List.mem_cons.mp mem with rfl | later
      · have others :
            (rest.flatMap session.callbacksOfTurn).filter (·.1 == thread.thread) = [] := by
          simp only [List.filter_flatMap, List.flatMap_eq_nil_iff]
          intro other otherMem
          exact own other fun same => distinct.1 (same ▸ List.mem_map_of_mem otherMem)
        simp only [others, List.append_nil, List.filter_eq_self]
        simp [callbacksOfTurn]
      · have different : head.thread ≠ thread.thread :=
          fun same => distinct.1 (same ▸ List.mem_map_of_mem later)
        simp only [own head different, List.nil_append]
        exact ih distinct.2 later

theorem checkForBreakpointsAndStepBack_thread (distinct : session.process.ports.Nodup)
    {thread : MDBThread} (mem : thread ∈ session.process.threads) :
    session.callbacksSince session.checkForBreakpointsAndStepBack thread.thread =
        (session.stepBackBreakpoint thread).toList ∧
      session.checkForBreakpointsAndStepBack.target.threadGetState32 thread.thread =
        session.registersAfterTurn thread := by
  have turns := turnsTaken_checkForBreakpointsAndStepBack distinct
  have reached := turns.reached
  have taken := turns.taken thread
  simp only [List.take_length] at reached taken
  refine ⟨?_, taken mem⟩
  simp only [callbacksSince, reached, List.drop_left, filter_flatMap_callbacks distinct mem]
  simp [callbacksOfTurn, Function.comp_def]

/-! ## The state at the stop -/

/-- A wait that ends with the awaited stop has just gathered the threads of the stopped target. -/
theorem gathered_of_stopped {waitSignal : Signal}
    (waited : session.internalWait waitSignal = some (.PRS_STOPPED, stopped)) :
    ∃ process : MDBProcess, session.process.Gathered process ∧
      stopped.process = process.gatherThreads stopped.target := by
  rcases internalWait_cases waited with ⟨-, impossible, -⟩ | ⟨-, next, looped, rfl⟩
  · simp at impossible
  · have ended : MDBProcessRunState.PRS_STOPPED = .PRS_STOPPED → ∃ process : MDBProcess,
        session.process.Gathered process ∧ next.process = process.gatherThreads next.target := by
      refine waitLoop_rule (fun _ middle => SameSettings session middle)
        (fun state last => state = .PRS_STOPPED → ∃ process : MDBProcess,
          session.process.Gathered process ∧ last.process = process.gatherThreads last.target)
        ?_ ?_ (.refl session) looped
      · exact fun _ _ _ _ _ _ same _ reaction => same.iteration reaction
      · rintro event rest middle target outcome state last same - reaction rfl
        rcases react_stopped_iff.mp reaction with ⟨-, rfl⟩
        exact ⟨middle.process, same.process, rfl⟩
    exact ended rfl

/--
The program counter the step back goes by: the true one of a live thread, but what was
cached earlier for an exited thread and for every thread of a process taken for a 64-bit
one.
-/
def seenProgramCounter (freed stopped : Session) (port : ThreadPort) : BitVec 32 :=
  if freed.process.is64Bit then (freed.process.entry port).state32.eip
  else (stopped.programCounter port).getD (stopped.process.entry port).state32.eip

/--
The threads that have hit are stepped back onto what they executed, with one callback each,
all others stay.
-/
def StepsBackHits (freed stopped after : Session) (hits : List ThreadPort) : Prop :=
  ∀ port ∈ stopped.process.ports,
    if port ∈ hits then
      ∃ address ref, HitsAt freed.EnabledAt freed.target stopped.target port address ∧
        stopped.findEnabled (address.setWidth 64) = some ref ∧
        after.programCounter port = some address ∧ stopped.callbacksSince after port = [ref]
    else
      after.programCounter port = stopped.programCounter port ∧
        stopped.callbacksSince after port = []

/-- The address of the breakpoint the debugger takes a thread to have executed. -/
def seenHit (freed stopped : Session) (port : ThreadPort) : Address :=
  (seenProgramCounter freed stopped port - 1).setWidth 64

/--
The threads that have hit are seen where they are and the first breakpoint at the address
they have hit is enabled, and no other thread is seen one byte behind an enabled breakpoint.
-/
def StandsClear (freed stopped : Session) (hits : List ThreadPort) : Prop :=
  ∀ port ∈ stopped.process.ports,
    if port ∈ hits then
      stopped.programCounter port = some (seenProgramCounter freed stopped port) ∧
        (stopped.findEnabled (seenHit freed stopped port)).isSome = true
    else stopped.findEnabled (seenHit freed stopped port) = none

theorem state32_entry_of_stopped {waitSignal : Signal}
    (waited : freed.internalWait waitSignal = some (.PRS_STOPPED, stopped)) (port : ThreadPort) :
    (stopped.process.entry port).state32.eip = seenProgramCounter freed stopped port := by
  rcases gathered_of_stopped waited with ⟨process, gathered, stopped_eq⟩
  have regathered := gathered.trans (.gatherThreads process stopped.target)
  simp only [seenProgramCounter, stopped_eq]
  split
  · rename_i wide
    rw [regathered.state32 wide port]
  · rename_i narrow
    cases registers : stopped.target.threadGetState32 port with
    | none => simp [programCounter, registers]
    | some state =>
        have live := (Target.threadGetState32_eq_some_iff.mp registers).1
        simp only [MDBProcess.entry_gatherThreads, if_pos live]
        simp [MDBThread.update, gathered.is64Bit, narrow, registers, programCounter]

theorem stepBack_thread_iff (table : stopped.process.ports.Nodup) {thread : MDBThread}
    (mem : thread ∈ stopped.process.threads) :
    (stopped.callbacksSince stopped.checkForBreakpointsAndStepBack thread.thread = [] ↔
        stopped.stepBackBreakpoint thread = none) ∧
      (stopped.stepBackBreakpoint thread = none →
        stopped.checkForBreakpointsAndStepBack.programCounter thread.thread =
          stopped.programCounter thread.thread) ∧
      ∀ ref, stopped.stepBackBreakpoint thread = some ref →
        stopped.callbacksSince stopped.checkForBreakpointsAndStepBack thread.thread = [ref] ∧
        stopped.checkForBreakpointsAndStepBack.programCounter thread.thread =
          (stopped.programCounter thread.thread).map fun _ => thread.state32.eip - 1 := by
  rcases checkForBreakpointsAndStepBack_thread table mem with ⟨callbacks, registers⟩
  rw [callbacks, programCounter, registers]
  refine ⟨by simp, ?_, ?_⟩
  · intro none
    simp [registersAfterTurn, none, programCounter]
  · intro ref some
    simp [registersAfterTurn, some, programCounter, Function.comp_def]

theorem hit_steppedBack_iff {hits : List ThreadPort}
    (schedule : Schedule freed.EnabledAt freed.target stopped.target hits)
    (table : stopped.process.ports.Nodup) {thread : MDBThread}
    (mem : thread ∈ stopped.process.threads) (hit : thread.thread ∈ hits) :
    (∃ address ref, HitsAt freed.EnabledAt freed.target stopped.target thread.thread address ∧
        stopped.findEnabled (address.setWidth 64) = some ref ∧
        stopped.checkForBreakpointsAndStepBack.programCounter thread.thread = some address ∧
        stopped.callbacksSince stopped.checkForBreakpointsAndStepBack thread.thread = [ref]) ↔
      stopped.programCounter thread.thread = some thread.state32.eip ∧
        (stopped.stepBackBreakpoint thread).isSome = true := by
  rcases stepBack_thread_iff table mem with ⟨unmoved, -, moved⟩
  constructor
  · rintro ⟨address, ref, executed, -, counter, callbacks⟩
    obtain ⟨breakpoint, decision⟩ : ∃ breakpoint,
        stopped.stepBackBreakpoint thread = some breakpoint := by
      apply Option.ne_none_iff_exists'.mp
      intro none
      simp [unmoved.mpr none] at callbacks
    have stands := programCounter_of_hitsAt executed
    simp only [(moved breakpoint decision).2, stands] at counter
    have same : thread.state32.eip - 1 = address := by simpa using counter
    refine ⟨?_, by simp [decision]⟩
    rw [stands, ← same, BitVec.sub_add_cancel]
  · rintro ⟨seen, decided⟩
    rcases Option.isSome_iff_exists.mp decided with ⟨breakpoint, decision⟩
    rcases schedule.exists_hitsAt hit with ⟨address, executed⟩
    have stands := programCounter_of_hitsAt executed
    have here : thread.state32.eip - 1 = address := by
      have same := Option.some.inj (seen.symm.trans stands)
      rw [same, BitVec.add_sub_cancel]
    refine ⟨address, breakpoint, executed, ?_, ?_, (moved breakpoint decision).1⟩
    · rw [← here]
      exact decision
    · simp only [(moved breakpoint decision).2, seen, Option.map_some, here]

/--
Under every schedule `resume` steps back and reports exactly the threads that have hit
iff these are seen where they are, behind a breakpoint that is the first at its address,
and no other is seen one byte behind an enabled breakpoint.
-/
theorem stepsBackHits_iff_standsClear {start freed stopped : Session} {hits : List ThreadPort}
    (entered : start.resumeToWait = some freed)
    (waited : freed.internalWait SIG_TRAP = some (.PRS_STOPPED, stopped))
    (schedule : Schedule freed.EnabledAt freed.target stopped.target hits)
    (table : freed.process.ports.Nodup) :
    ∃ after, start.resume = some (true, after) ∧
      (StepsBackHits freed stopped after hits ↔ StandsClear freed stopped hits) := by
  refine ⟨stopped.checkForBreakpointsAndStepBack, by simp [resume, entered, waited], ?_⟩
  have table := (SameSettings.internalWait waited).process.distinct table
  refine forall₂_congr fun port mem => ?_
  rcases List.mem_map.mp mem with ⟨thread, threadMem, rfl⟩
  rcases List.getElem?_of_mem threadMem with ⟨index, present⟩
  have seen := state32_entry_of_stopped waited thread.thread
  simp only [MDBProcess.entry_eq_of_getElem? table present] at seen
  rw [seenHit, ← seen]
  split
  · rename_i hit
    exact hit_steppedBack_iff schedule table threadMem hit
  · rcases stepBack_thread_iff table threadMem with ⟨unmoved, keeps, -⟩
    exact ⟨fun alone => unmoved.mp alone.2, fun clear => ⟨keeps clear, unmoved.mpr clear⟩⟩

/-! ## A thread that stands behind a breakpoint -/

def registersAt (eip : BitVec 32) : MDBThreadState32 := { (default : MDBThreadState32) with eip }

/-- One thread is about to run into the breakpoint at `0x1000`, the other stands behind it. -/
def standingBehind : Target where
  memory := Function.update (fun _ => 0x90#8) 0x1000#64 int_3
  live := [1, 2]
  thread port := ⟨.state32 (registersAt (if port = 1 then 0xFFF#32 else 0x1001#32)), ⟨.running, 0⟩⟩
  suspendCount := 0
  pidKnown := true

/-- The first thread executes its instruction and the breakpoint, the second one nothing. -/
def firstThreadHits (target : Target) : Target :=
  let target := { target.setRegisters 1 (registersAt 0x1000#32) with memory := target.memory }
  target.setRegisters 1 (registersAt 0x1001#32)

/-- A debugger whose caches are up to date, with the bitness it takes the process for. -/
def attachedBehind (is64Bit : Bool) : Session :=
  { attached standingBehind
      [fun target => some (firstThreadHits target, .stopped SIG_TRAP none)] with
    breakpoints := [⟨0x1000#64, 0x90#8, true, none⟩]
    process := {
      running := true
      is64Bit
      threads := [⟨1, ⟨.running, 0⟩, registersAt 0xFFF#32, default⟩,
        ⟨2, ⟨.running, 0⟩, registersAt 0x1001#32, default⟩]
      uninitialized := fun _ => default } }

def freedBehind (is64Bit : Bool) : Session := (attachedBehind is64Bit).machResumeThreadsAndTask

def stoppedBehind (is64Bit : Bool) : Session :=
  ((freedBehind is64Bit).report [] (firstThreadHits (freedBehind is64Bit).target)
    (.stopped SIG_TRAP none)).gatherThreads.noteReturn .PRS_STOPPED

theorem resumeToWait_attachedBehind (is64Bit : Bool) :
    (attachedBehind is64Bit).resumeToWait = some (freedBehind is64Bit) := by
  have clear : ∀ thread ∈ (attachedBehind is64Bit).process.threads,
      (attachedBehind is64Bit).findEnabled thread.state32.pc = none := by
    cases is64Bit <;> decide
  simp only [resumeToWait, checkForBreakpointsAndStep, stepOffFrom_eq_self clear]
  rfl

theorem internalWait_freedBehind (is64Bit : Bool) :
    (freedBehind is64Bit).internalWait SIG_TRAP =
      some (.PRS_STOPPED, stoppedBehind is64Bit) := by
  rfl

theorem schedule_firstThreadArrives {armed : Address → Prop} {target : Target}
    (live : 1 ∈ target.live)
    (current : (target.thread 1).registers = .state32 (registersAt 0xFFF#32))
    (plain : target.memory 0xFFF#64 ≠ int_3) :
    ∃ arrived : Target, arrived = { target.setRegisters 1 (registersAt 0x1000#32) with
        memory := target.memory } ∧
      Schedule armed target arrived [] ∧ 1 ∈ arrived.live ∧
      (arrived.thread 1).registers = .state32 (registersAt 0x1000#32) := by
  refine ⟨_, rfl, ?_, ?_, ?_⟩
  · exact .single (.execute live List.not_mem_nil current fun both => plain both.2)
  · simpa [Target.setRegisters] using live
  · change ((target.setRegisters 1 (registersAt 0x1000#32)).thread 1).registers = _
    rw [Target.registers_setRegisters live, if_pos rfl]

theorem schedule_firstThreadHits {armed : Address → Prop} {target : Target}
    (live : 1 ∈ target.live)
    (current : (target.thread 1).registers = .state32 (registersAt 0xFFF#32))
    (plain : target.memory 0xFFF#64 ≠ int_3) (armedHere : armed 0x1000#64)
    (patched : target.memory 0x1000#64 = int_3) :
    Schedule armed target (firstThreadHits target) [1] := by
  rcases schedule_firstThreadArrives live current plain with ⟨_, rfl, arrives, stillLive, moved⟩
  apply arrives.tail
  exact .hit stillLive List.not_mem_nil moved armedHere patched

theorem schedule_behind (is64Bit : Bool) :
    Schedule (freedBehind is64Bit).EnabledAt (freedBehind is64Bit).target
      (stoppedBehind is64Bit).target [1] := by
  have stopped_eq : (stoppedBehind is64Bit).target =
      firstThreadHits (freedBehind is64Bit).target := rfl
  have armed : (freedBehind is64Bit).EnabledAt 0x1000#64 :=
    ⟨.regular 0, ⟨0x1000#64, 0x90#8, true, none⟩, rfl, rfl, rfl⟩
  rw [stopped_eq]
  cases is64Bit <;>
    exact schedule_firstThreadHits (by decide) rfl (by decide) armed (by decide)

theorem stepsBackHits_iff_standsClear_behind :
    ∃ after, (attachedBehind false).resume = some (true, after) ∧
      (StepsBackHits (freedBehind false) (stoppedBehind false) after [1] ↔
        StandsClear (freedBehind false) (stoppedBehind false) [1]) :=
  stepsBackHits_iff_standsClear (resumeToWait_attachedBehind false)
    (internalWait_freedBehind false) (schedule_behind false) (by decide)

/-- Under some schedule a thread that has not hit is stepped back by `resume`. -/
def StepsBackOther (start : Session) (port : ThreadPort) : Prop :=
  ∃ freed stopped after hits, start.resumeToWait = some freed ∧
    freed.internalWait SIG_TRAP = some (.PRS_STOPPED, stopped) ∧
    Schedule freed.EnabledAt freed.target stopped.target hits ∧ port ∉ hits ∧
    start.resume = some (true, after) ∧ stopped.callbacksSince after port ≠ [] ∧
    after.programCounter port ≠ stopped.programCounter port

theorem stepsBackOther_attachedBehind (is64Bit : Bool) :
    StepsBackOther (attachedBehind is64Bit) 2 := by
  refine ⟨freedBehind is64Bit, stoppedBehind is64Bit,
    (stoppedBehind is64Bit).checkForBreakpointsAndStepBack, [1],
    resumeToWait_attachedBehind is64Bit, internalWait_freedBehind is64Bit,
    schedule_behind is64Bit, by decide, ?_, ?_, ?_⟩
  · simp [resume, resumeToWait_attachedBehind, internalWait_freedBehind]
  · cases is64Bit <;> decide
  · cases is64Bit <;> decide

/-- A thread that got no time is stepped back, whatever bitness the process is taken for. -/
theorem idle_thread_steppedBack :
    StepsBackOther (attachedBehind false) 2 ∧ StepsBackOther (attachedBehind true) 2 :=
  ⟨stepsBackOther_attachedBehind false, stepsBackOther_attachedBehind true⟩

end RustDbg.Session
