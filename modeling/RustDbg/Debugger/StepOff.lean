import RustDbg.Breakpoint.Arming
import RustDbg.Debugger.Recognition

/-!
# Stepping off breakpoints

In the loop of `MDBDebugger::checkForBreakpointsAndStep`, suspend counts, memory and
caches carry over from one turn to the next. Each thread that stands at a breakpoint when
the loop begins takes one turn, and the breakpoints are as before when the loop ends.
-/

namespace RustDbg.Session

variable {processor : Processor} {session prepared stopped last : Session} {index : Nat}
  {thread : MDBThread} {port : ThreadPort} {registers : MDBThreadState32} {ref : BreakpointRef}

/-- A live thread is at an address at which a breakpoint is found enabled. -/
def standsAtBreakpoint (session : Session) (port : ThreadPort) : Bool :=
  (session.target.threadGetState32 port).any fun registers =>
    (session.findEnabled registers.pc).isSome

/-- From a position of the table on, each thread that stands at a breakpoint steps off it. -/
structure StepsOffFrom (processor : Processor) (session : Session) (index : Nat)
    (turns : List Turn) (last : Session) : Prop where
  ports : turns.map (·.port) =
    (session.process.ports.drop index).filter session.standsAtBreakpoint
  steps : ∀ turn ∈ turns, ∃ registers registers',
    session.target.threadGetState32 turn.port = some registers ∧
      turn.prepared.target.SingleSteps turn.port (registers.withTrapFlag true) ∧
      processor.Executed turn.port (registers.withTrapFlag true) registers' turn.prepared.target
        turn.stopped.target ∧
      turn.FetchesSaved processor session.breakpoints ∧
      last.target.threadGetState32 turn.port = some (registers'.withTrapFlag false)
  breakpoints : last.breakpoints = session.breakpoints
  rawBytes : ∀ breakpoint ∈ session.breakpoints,
    last.target.memory breakpoint.address = session.target.memory breakpoint.address
  live : last.target.live = session.target.live
  others : ∀ port, port ∉ turns.map (·.port) →
    (last.target.thread port).registers = (session.target.thread port).registers
  cached : ∀ port ∈ last.target.live, ∃ registers, CachedAt last port registers

/-- What the loop needs and keeps up from one turn to the next. -/
structure InOrder (session : Session) : Prop where
  steppable : Steppable session
  narrow : session.process.is64Bit = false
  agree : BreakpointState.PatchesAgree session.breakpoints
  armed : session.breakpointState.Armed
  cached : ∀ port ∈ session.target.live, ∃ registers, CachedAt session port registers

/-- A thread of the table stands at a breakpoint if it is found at the cached address. -/
theorem standsAtBreakpoint_of_present (order : InOrder session)
    (present : session.process.threads[index]? = some thread)
    (live : thread.thread ∈ session.target.live) :
    session.target.threadGetState32 thread.thread = some thread.state32 ∧
      session.standsAtBreakpoint thread.thread =
        (session.findEnabled thread.state32.pc).isSome := by
  rcases order.cached thread.thread live with ⟨registers, current, cached⟩
  simp only [MDBProcess.entry_eq_of_getElem? order.steppable.distinct present] at cached
  simp only [← cached] at current
  have state := Target.threadGetState32_eq_some_iff.mpr ⟨live, current⟩
  refine ⟨state, ?_⟩
  simp only [standsAtBreakpoint, state, Option.any_some]

theorem findEnabled_of_enabledAt {address : Address}
    (distinct : session.breakpointState.DistinctAddresses)
    (enabledAt : session.EnabledAt address) : ∃ ref, session.findEnabled address = some ref := by
  rcases enabledAt with ⟨ref, breakpoint, pointed, enabled, rfl⟩
  refine ⟨ref, ?_⟩
  simp [findEnabled, BreakpointState.findBreakpoint_of_deref distinct pointed, pointed, enabled]

/-- With no two breakpoints at one address, any enabled one is found. -/
theorem standsAtBreakpoint_iff (distinct : session.breakpointState.DistinctAddresses) :
    session.standsAtBreakpoint port = true ↔
      ∃ registers, session.target.threadGetState32 port = some registers ∧
        session.EnabledAt registers.pc := by
  simp only [standsAtBreakpoint, Option.any_eq_true, Option.isSome_iff_exists]
  constructor
  · rintro ⟨registers, state, ref, found⟩
    exact ⟨registers, state, enabledAt_of_findEnabled found⟩
  · rintro ⟨registers, state, enabledAt⟩
    exact ⟨registers, state, findEnabled_of_enabledAt distinct enabledAt⟩

theorem standsAtBreakpoint_of_dead (dead : port ∉ session.target.live) :
    session.standsAtBreakpoint port = false := by
  simp [standsAtBreakpoint, Target.threadGetState32, dead]

theorem InOrder.next (order : InOrder session) {next : Session}
    (ended : TurnOver session next thread)
    (own : ∃ registers, CachedAt next thread.thread registers) : InOrder next := by
  refine ⟨ended.steppable, ended.is64Bit.trans order.narrow, ?_, ?_, ?_⟩
  · rw [ended.breakpoints]
    exact order.agree
  · intro breakpoint mem enabled
    have mem : breakpoint ∈ session.breakpoints := ended.breakpoints ▸ mem
    by_cases here : breakpoint.address = thread.state32.pc
    · rw [here]
      exact ended.patched
    · apply (ended.untouched breakpoint mem here).trans
      exact order.armed breakpoint mem enabled
  · intro port live
    simp only [ended.live] at live
    by_cases same : port = thread.thread
    · rw [same]
      exact own
    · rcases order.cached port live with ⟨registers, cachedAt⟩
      exact ⟨registers, ended.caches port registers same live cachedAt⟩

theorem standsAtBreakpoint_congr {next : Session} (steppable : Steppable session)
    (ended : TurnOver session next thread) {other : ThreadPort}
    (different : other ≠ thread.thread) :
    next.standsAtBreakpoint other = session.standsAtBreakpoint other := by
  have transients : next.transientBreakpoints = session.transientBreakpoints := by
    simp only [ended.steppable.noTransient, steppable.noTransient]
  simp only [standsAtBreakpoint,
    threadGetState32_congr ended.live (ended.registers other different),
    findEnabled_congr ended.breakpoints transients]

theorem drop_ports (present : session.process.threads[index]? = some thread) :
    session.process.ports.drop index = thread.thread :: session.process.ports.drop (index + 1) := by
  rcases List.getElem?_eq_some_iff.mp present with ⟨bound, rfl⟩
  have inside : index < session.process.ports.length := by simpa [MDBProcess.ports] using bound
  rw [List.drop_eq_getElem_cons inside]
  simp [MDBProcess.ports]

/-- Ports that the table has gained are those of exited threads and stand nowhere. -/
theorem filter_standsAtBreakpoint_next (steppable : Steppable session) {next : Session}
    (ended : TurnOver session next thread)
    (present : session.process.threads[index]? = some thread) :
    (next.process.ports.drop (index + 1)).filter next.standsAtBreakpoint =
      (session.process.ports.drop (index + 1)).filter session.standsAtBreakpoint := by
  rcases ended.ports with ⟨new, grown⟩
  have inside : index + 1 ≤ session.process.ports.length := by
    have bound := (List.getElem?_eq_some_iff.mp present).1
    simp only [MDBProcess.ports, List.length_map]
    exact bound
  have newDead : ∀ port ∈ new, next.standsAtBreakpoint port = false := by
    intro port mem
    apply standsAtBreakpoint_of_dead
    intro live
    simp only [ended.live] at live
    have distinct := ended.steppable.distinct
    simp only [← grown, List.nodup_append] at distinct
    exact distinct.2.2 port (steppable.listed port live) port mem rfl
  have distinct := steppable.distinct.sublist (List.drop_sublist index _)
  simp only [drop_ports present, List.nodup_cons] at distinct
  have gained : new.filter next.standsAtBreakpoint = [] := by
    rw [List.filter_eq_nil_iff]
    intro port mem
    simp [newDead port mem]
  rw [← grown, List.drop_append_of_le_length inside, List.filter_append, gained, List.append_nil]
  apply List.filter_congr
  intro port mem
  exact standsAtBreakpoint_congr steppable ended fun same => distinct.1 (same ▸ mem)

theorem stepsOffFrom_of_takesTurns (order : InOrder session) {turns : List Turn}
    (run : TakesTurns processor session index turns last)
    (whole : ∀ turn ∈ turns, turn.Whole processor session.breakpoints) :
    StepsOffFrom processor session index turns last := by
  induction run with
  | @done session index outside =>
      refine ⟨?_, ?_, rfl, fun _ _ => rfl, rfl, fun _ _ => rfl, order.cached⟩
      · have beyond : session.process.ports.length ≤ index := by
          simpa [MDBProcess.ports] using outside
        rw [List.drop_eq_nil_of_le beyond]
        rfl
      · intro turn none
        cases none
  | @pass session last index thread turns present clear rest ih =>
      have later := ih order whole
      refine ⟨?_, later.steps, later.breakpoints, later.rawBytes, later.live, later.others,
        later.cached⟩
      have stays : session.standsAtBreakpoint thread.thread = false := by
        by_cases live : thread.thread ∈ session.target.live
        · simp only [(standsAtBreakpoint_of_present order present live).2, clear]
          rfl
        · exact standsAtBreakpoint_of_dead live
      rw [later.ports, drop_ports present, List.filter_cons_of_neg (by simp [stays])]
  | @turn session prepared stopped last index thread ref turns present found preparation waited
      stops rest ih =>
      rcases turn_effect order.steppable order.agree present found preparation waited stops with
        ⟨live, ready, unpatched, ended, registers', executed, cachedAt⟩
      have orderNext := order.next ended ⟨_, cachedAt order.narrow⟩
      have later := ih orderNext (by
        rw [ended.breakpoints]
        exact fun turn mem => whole turn (List.mem_cons_of_mem _ mem))
      rcases standsAtBreakpoint_of_present order present live with ⟨state, stands⟩
      have portsLater : turns.map (·.port) =
          (session.process.ports.drop (index + 1)).filter session.standsAtBreakpoint := by
        rw [later.ports]
        exact filter_standsAtBreakpoint_next order.steppable ended present
      have notAgain : thread.thread ∉ turns.map (·.port) := by
        have distinct := order.steppable.distinct.sublist (List.drop_sublist index _)
        simp only [drop_ports present, List.nodup_cons] at distinct
        rw [portsLater]
        exact fun mem => distinct.1 (List.mem_of_mem_filter mem)
      refine ⟨?_, ?_, later.breakpoints.trans ended.breakpoints, ?_,
        later.live.trans ended.live, ?_, later.cached⟩
      · have at_breakpoint : session.standsAtBreakpoint thread.thread = true := by
          simp only [stands, found]
          rfl
        rw [List.map_cons, drop_ports present, List.filter_cons_of_pos at_breakpoint, portsLater]
      · intro turn mem
        rcases List.mem_cons.mp mem with rfl | mem
        · refine ⟨thread.state32, registers', state, ready.singleSteps, executed, ?_, ?_⟩
          · exact (whole _ List.mem_cons_self).fetchesSavedBehind.fetchesSaved
              ready.singleSteps.current unpatched.fetched
          · have final := later.others thread.thread notAgain
            refine Target.threadGetState32_eq_some_iff.mpr ⟨?_, ?_⟩
            · simp only [later.live, ended.live]
              exact live
            · exact final.trans (cachedAt order.narrow).current
        · rcases later.steps turn mem with
            ⟨registers, registersAfter, before, singleSteps, executedLater, fetches, final⟩
          have different : turn.port ≠ thread.thread := by
            intro same
            exact notAgain (same ▸ List.mem_map_of_mem mem)
          simp only [ended.breakpoints] at fetches
          refine ⟨registers, registersAfter, ?_, singleSteps, executedLater, fetches, final⟩
          rw [← threadGetState32_congr ended.live (ended.registers turn.port different)]
          exact before
      · intro breakpoint mem
        rw [later.rawBytes breakpoint (ended.breakpoints ▸ mem)]
        by_cases here : breakpoint.address = thread.state32.pc
        · rcases exists_of_findEnabled order.steppable.noTransient found with
            ⟨_, hit, _, located, enabled, at_pc⟩
          have armed := order.armed hit (List.mem_of_getElem? located) enabled
          rw [here, ended.patched, ← at_pc]
          exact armed.symm
        · exact ended.untouched breakpoint mem here
      · intro port absent
        simp only [List.map_cons, List.mem_cons, not_or] at absent
        rw [later.others port absent.2]
        exact ended.registers port absent.1

theorem patchesAgree_of_distinctAddresses
    (distinct : session.breakpointState.DistinctAddresses) :
    BreakpointState.PatchesAgree session.breakpoints := by
  intro first firstMem second secondMem _ _ shared
  simp only [BreakpointState.DistinctAddresses, List.map_append, List.nodup_append] at distinct
  rw [List.inj_on_of_nodup_map distinct.1 firstMem secondMem shared]

/--
The threads that stand at an enabled breakpoint, and no others, take a turn, each of them
one, in which it alone can run and executes one instruction with the breakpoint out of the
way. After the loop the breakpoints are back and no trap flag is left behind.
-/
theorem checkForBreakpointsAndStep_stepsOff (steppable : Steppable session)
    (narrow : session.process.is64Bit = false)
    (distinct : session.breakpointState.DistinctAddresses)
    (armed : session.breakpointState.Armed)
    (cached : ∀ port ∈ session.target.live, ∃ registers, CachedAt session port registers)
    {turns : List Turn} (run : TakesTurns processor session 0 turns last)
    (whole : ∀ turn ∈ turns, turn.Whole processor session.breakpoints) :
    session.checkForBreakpointsAndStep = some last ∧
      (turns.map (·.port)).Nodup ∧
      (∀ port, port ∈ turns.map (·.port) ↔
        ∃ registers, session.target.threadGetState32 port = some registers ∧
          session.EnabledAt registers.pc) ∧
      StepsOffFrom processor session 0 turns last := by
  have agree := patchesAgree_of_distinctAddresses distinct
  have stepsOff := stepsOffFrom_of_takesTurns ⟨steppable, narrow, agree, armed, cached⟩ run whole
  have ports := stepsOff.ports
  simp only [List.drop_zero] at ports
  refine ⟨run.stepOffFrom_eq, ?_, ?_, stepsOff⟩
  · rw [ports]
    exact steppable.distinct.filter _
  · intro port
    simp only [ports, List.mem_filter, standsAtBreakpoint_iff distinct]
    constructor
    · exact fun stands => stands.2
    · rintro ⟨registers, state, enabledAt⟩
      refine ⟨?_, registers, state, enabledAt⟩
      apply steppable.listed
      exact (Target.threadGetState32_eq_some_iff.mp state).1

/-- After a stop of a 32-bit target the caches are current when the loop begins. -/
theorem cachedAt_of_stopped {freed : Session}
    (waited : freed.internalWait SIG_TRAP = some (.PRS_STOPPED, stopped))
    (narrow : freed.process.is64Bit = false) (distinct : freed.process.ports.Nodup)
    (wide : ∀ port ∈ stopped.target.live, ∃ registers,
      (stopped.target.thread port).registers = .state32 registers) :
    ∀ port ∈ stopped.checkForBreakpointsAndStepBack.target.live,
      ∃ registers, CachedAt stopped.checkForBreakpointsAndStepBack port registers := by
  intro port live
  have table := (SameSettings.internalWait waited).process.distinct distinct
  have quiet := Quiet.checkForBreakpointsAndStepBack stopped
  simp only [quiet.live] at live
  rcases wide port live with ⟨registers, current⟩
  have refreshed := state32_entry_of_live waited live current
  rcases List.mem_map.mp (listed_of_stopped waited live) with ⟨thread, mem, rfl⟩
  rcases List.getElem?_of_mem mem with ⟨index, present⟩
  have state := Target.threadGetState32_eq_some_iff.mpr ⟨live, current⟩
  cases decision : stopped.stepBackBreakpoint thread with
  | some ref => exact ⟨_, cachedAt_stepBack table present decision state⟩
  | none =>
      have given := (checkForBreakpointsAndStepBack_thread table mem).2
      simp only [registersAfterTurn, decision, state] at given
      have cached := getElem?_checkForBreakpointsAndStepBack table present
      simp only [steppedBack, decision] at cached
      refine ⟨registers, (Target.threadGetState32_eq_some_iff.mp given).2, ?_⟩
      rw [MDBProcess.entry_eq_of_getElem? (quiet.ports ▸ table) cached]
      simp only [MDBProcess.entry_eq_of_getElem? table present, narrow] at refreshed
      exact refreshed

/-! ## Two threads, of which one stands at `0x1000` -/

def oneStanding : Session :=
  { attached
      { memory := Function.update (fun _ => 0x90#8) 0x1000#64 int_3
        live := [1, 2]
        thread := fun port => if port = 1 then ⟨.state32 (registersAt 0x1000#32), ⟨.running, 2⟩⟩
          else ⟨.state32 (registersAt 0x2000#32), ⟨.running, 0⟩⟩
        suspendCount := 0
        pidKnown := true }
      [fun target => some (stepNop target, .stopped SIG_TRAP none)] with
    breakpoints := [⟨0x1000#64, 0x90#8, true, none⟩]
    process := {
      running := true
      is64Bit := false
      threads := [⟨1, ⟨.running, 2⟩, registersAt 0x1000#32, default⟩,
        ⟨2, ⟨.running, 0⟩, registersAt 0x2000#32, default⟩]
      uninitialized := fun _ => default } }

def preparedToStep : Session := (oneStanding.disable (.regular 0)).singleStepToWait 0

def stoppedAfterStep : Session :=
  (preparedToStep.report [] (stepNop preparedToStep.target) (.stopped SIG_TRAP none)).gatherThreads
    |>.noteReturn .PRS_STOPPED

def steppedOff : Session :=
  (stoppedAfterStep.enableSingleStep 0 false).enable (.regular 0) true

theorem steppable_oneStanding : Steppable oneStanding := by
  refine ⟨rfl, rfl, by decide, ?_, ?_⟩
  · exact fun port live => live
  · intro port _
    by_cases first : port = 1
    · exact ⟨registersAt 0x1000#32, by simp [oneStanding, attached, first]⟩
    · exact ⟨registersAt 0x2000#32, by simp [oneStanding, attached, first]⟩

theorem stops_preparedToStep : nops.Stops preparedToStep stoppedAfterStep :=
  stops_stepNop (by decide) (by decide) rfl rfl

theorem takesTurns_oneStanding :
    TakesTurns nops oneStanding 0 [⟨1, preparedToStep, stoppedAfterStep⟩] steppedOff := by
  have first : oneStanding.process.threads[0]? =
      some ⟨1, ⟨.running, 2⟩, registersAt 0x1000#32, default⟩ := rfl
  refine .turn first rfl rfl rfl stops_preparedToStep ?_
  have second : steppedOff.process.threads[1]? =
      some ⟨2, ⟨.running, 1⟩, registersAt 0x2000#32, default⟩ := rfl
  refine .pass second rfl ?_
  exact .done (by decide)

theorem checkForBreakpointsAndStep_stepsOff_oneStanding :
    oneStanding.checkForBreakpointsAndStep = some steppedOff ∧
      StepsOffFrom nops oneStanding 0 [⟨1, preparedToStep, stoppedAfterStep⟩] steppedOff := by
  have armed : oneStanding.breakpointState.Armed := by
    intro breakpoint mem _
    rw [List.mem_singleton.mp mem]
    rfl
  have cached : ∀ port ∈ oneStanding.target.live, ∃ registers,
      CachedAt oneStanding port registers := by
    intro port live
    rcases List.mem_pair.mp live with rfl | rfl
    · exact ⟨registersAt 0x1000#32, rfl, rfl⟩
    · exact ⟨registersAt 0x2000#32, rfl, rfl⟩
  have whole : ∀ turn ∈ [(⟨1, preparedToStep, stoppedAfterStep⟩ : Turn)],
      turn.Whole nops oneStanding.breakpoints := by
    intro turn mem registers _ breakpoint _ _ offset positive within
    apply absurd within
    simp only [nops]; omega
  have distinct : oneStanding.breakpointState.DistinctAddresses := by
    change [0x1000#64].Nodup
    exact List.nodup_singleton _
  have stepsOff := checkForBreakpointsAndStep_stepsOff steppable_oneStanding rfl distinct armed
    cached takesTurns_oneStanding whole
  exact ⟨stepsOff.1, stepsOff.2.2.2⟩

end RustDbg.Session
