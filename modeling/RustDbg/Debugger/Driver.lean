import RustDbg.Code.Load
import RustDbg.Code.Symbols
import RustDbg.Debugger.Interference
import RustDbg.Debugger.Launch
import RustDbg.Image.Faithful

/-!
# The test driver

`MDBDebuggerTest0::run` starts a program, loads its symbols, sets a breakpoint at what it finds
for the name of the entry point, and resumes the program as long as it stops. The breakpoint is
compared with cached 32-bit registers, which a process that is taken for a 64-bit one never
refreshes: once the breakpoint has been planted, the debugger looks on.
-/

namespace RustDbg

open Buffer Interleaving

namespace Session

/-- `while (debugger.resume())`, with a bound on how often, and a body that only prints. -/
def resumeWhileStopped : Nat → Session → Option Session
  | 0, _ => none
  | turns + 1, session => do
      let (stopped, session) ← session.resume
      if stopped then resumeWhileStopped turns session else return session

/-- `debugger.createBreakpoint(address, NULL)->enable(true)` -/
def plant (session : Session) (address : Address) : Session :=
  let (breakpoint, session) := session.createBreakpoint address
  session.enable breakpoint true

end Session

/--
`MDBDebuggerTest0::run`: what it returns, and the session that it ends with if it has attached to
a process. There is no result where the behaviour is undefined or a call does not return.
-/
def MDBDebuggerTest0.run (machFiles : MachFiles) (depth : Nat) (fileName : List Byte)
    (launch : Launch) (events : List WaitEvent) : Option (Bool × Option Session) := do
  let (created, debugger) ← nothingLaunched.createProcess launch
  if created = false then return (false, none)
  -- The pointer to the process is used before anything else, also if it is still null.
  let object ← debugger.process.bind (debugger.objects[·]?)
  let (_, files) ← machFiles.loadSymbols depth [] fileName
  let symbol ← findSymbolByNameOrAddress files (some entryPointName) 0
  let session := { Session.attached launch.child events with process := object.process }
  let session ← (session.plant symbol.address).resumeWhileStopped (events.length + 1)
  return (false, some session)

/-- The session of a debugger that has attached to the child of a launch. -/
def Launch.session (launch : Launch) (events : List WaitEvent) : Session :=
  { Session.attached launch.child events with
    process := (MDBProcess.create launch.uninitialized).gatherThreads launch.child }

instance : Std.Refl Target.SameExecution := ⟨Target.SameExecution.refl⟩

instance : IsTrans Target Target.SameExecution := ⟨fun _ _ _ left right => left.trans right⟩

/-- A thread with these registers is not at an address, and not right behind it. -/
def MDBThreadState32.Misses (registers : MDBThreadState32) (stop : Address) : Prop :=
  registers.pc ≠ stop ∧ (registers.eip - 1).setWidth 64 ≠ stop

namespace Session

variable {stop : Address} {session next first second third after : Session} {answer : Bool}

/-! ## The loop -/

theorem length_events_of_advances (advances : Advances first second) :
    second.events.length ≤ first.events.length := by
  refine advances.preserves (fun session => session.events.length ≤ first.events.length) ?_ ?_
    (Nat.le_refl _)
  · intro before after bound quiet
    rwa [quiet.events]
  · intro before state after bound returned
    rcases internalWait_progress returned with fewer | ⟨same, -⟩
    · omega
    · rwa [same]

/-- A `resume` after which the program has stopped uses up an event. -/
theorem length_events_of_resume (resumed : session.resume = some (true, after)) :
    after.events.length < session.events.length := by
  rcases resume_cases resumed with ⟨freed, state, waited, steps, returned, stopped, after_eq⟩
  have before := length_events_of_advances (advances_resumeToWait steps)
  obtain rfl : state = .PRS_STOPPED := of_decide_eq_true stopped.symm
  have events : after.events = waited.events := by
    rw [after_eq, if_pos rfl]
    exact (Quiet.checkForBreakpointsAndStepBack waited).events
  rcases internalWait_cases returned with ⟨-, unknown, -⟩ | ⟨known, -⟩
  · cases unknown
  · rcases events_internalWait known returned with ⟨used, nonempty, split⟩
    have positive := List.length_pos_of_ne_nil nonempty
    have lengths := congrArg List.length split
    rw [List.length_append] at lengths
    rw [events]
    omega

/-- With more turns than events the bound on the turns does not matter. -/
theorem resumeWhileStopped_eq {turns more : Nat} (enough : session.events.length < turns)
    (atLeast : turns ≤ more) :
    session.resumeWhileStopped more = session.resumeWhileStopped turns := by
  induction turns generalizing session more with
  | zero => omega
  | succ turns ih =>
      obtain ⟨more, rfl⟩ : ∃ fewer, more = fewer + 1 := ⟨more - 1, by omega⟩
      simp only [resumeWhileStopped, Option.bind_eq_bind]
      cases resumed : session.resume with
      | none => rfl
      | some result =>
          rcases result with ⟨stopped, next⟩
          cases stopped with
          | false => rfl
          | true =>
              have fewer := length_events_of_resume resumed
              simpa using @ih next more (by omega) (by omega)

/-! ## Looking on -/

/-- There are breakpoints at one address only, and all cached 32-bit registers miss it for good. -/
structure Unaware (stop : Address) (session : Session) : Prop where
  wide : session.process.is64Bit = true
  distinct : session.process.ports.Nodup
  misses : ∀ port, (session.process.entry port).state32.Misses stop
  located : At (· = stop) session

/-- The debugger has only let the target run, and no breakpoint has been found reached. -/
structure LooksOn (before after : Session) : Prop where
  breakpoints : after.breakpoints = before.breakpoints
  reached : after.reached = before.reached
  interleaves : Interleaves Target.SameExecution before after

theorem LooksOn.trans (left : LooksOn first second) (right : LooksOn second third) :
    LooksOn first third where
  breakpoints := right.breakpoints.trans left.breakpoints
  reached := right.reached.trans left.reached
  interleaves := left.interleaves.trans right.interleaves

theorem LooksOn.wait {waitSignal : Signal} {state : MDBProcessRunState}
    (returned : session.internalWait waitSignal = some (state, next)) : LooksOn session next where
  breakpoints := (SameSettings.internalWait returned).breakpoints
  reached := (SameSettings.internalWait returned).reached
  interleaves := .wait returned

theorem LooksOn.machResumeThreadsAndTask (session : Session) :
    LooksOn session session.machResumeThreadsAndTask where
  breakpoints := rfl
  reached := rfl
  interleaves := .own rfl rfl (MDBProcess.sameExecution_resumeThreads ..)

namespace Unaware

theorem findEnabled_eq_none (unaware : Unaware stop session) {address : Address}
    (elsewhere : address ≠ stop) : session.findEnabled address = none := by
  cases found : session.findEnabled address with
  | none => rfl
  | some ref =>
      rcases deref_of_findEnabled found with ⟨breakpoint, pointed, -, rfl⟩
      have has := BreakpointState.hasBreakpoint_of_deref pointed
      exact absurd (unaware.located.known _ has) elsewhere

theorem misses_of_mem (unaware : Unaware stop session) {thread : MDBThread}
    (present : thread ∈ session.process.threads) : thread.state32.Misses stop := by
  rcases List.mem_iff_getElem?.mp present with ⟨index, here⟩
  rw [← MDBProcess.entry_eq_of_getElem? unaware.distinct here]
  exact unaware.misses thread.thread

/-- No thread is taken to stand at the breakpoint. -/
theorem checkForBreakpointsAndStep_eq (unaware : Unaware stop session) :
    session.checkForBreakpointsAndStep = some session := by
  apply stepOffFrom_eq_self
  intro thread present
  apply unaware.findEnabled_eq_none
  exact (unaware.misses_of_mem present).1

/-- No thread is taken to have run into the breakpoint. -/
theorem checkForBreakpointsAndStepBack_eq (unaware : Unaware stop session) :
    session.checkForBreakpointsAndStepBack = session := by
  have turn : ∀ index, session.stepBackThread index = session := by
    intro index
    cases present : session.process.threads[index]? with
    | none => simp only [stepBackThread, present]
    | some thread =>
        have missed := (unaware.misses_of_mem (List.mem_of_getElem? present)).2
        simp only [stepBackThread, present, unaware.findEnabled_eq_none missed]
  rw [checkForBreakpointsAndStepBack]
  induction List.range session.process.threads.length with
  | nil => rfl
  | cons index rest ih => rw [List.foldl_cons, turn, ih]

theorem wait (unaware : Unaware stop session) {state : MDBProcessRunState}
    (returned : session.internalWait SIG_TRAP = some (state, next)) : Unaware stop next where
  wide := (SameSettings.internalWait returned).process.is64Bit.trans unaware.wide
  distinct := (SameSettings.internalWait returned).process.distinct unaware.distinct
  misses port := by
    rw [(SameSettings.internalWait returned).process.state32 unaware.wide]
    exact unaware.misses port
  located := unaware.located.operates (.wait returned)

theorem machResumeThreadsAndTask (unaware : Unaware stop session) :
    Unaware stop session.machResumeThreadsAndTask where
  wide := unaware.wide
  distinct := unaware.distinct
  misses := unaware.misses
  located := ⟨unaware.located.noTransient, unaware.located.known⟩

/-- A `resume` lets the target run and waits. -/
theorem resume_eq (unaware : Unaware stop session) :
    session.resume = (session.machResumeThreadsAndTask.internalWait SIG_TRAP).map
      fun result => (decide (result.1 = .PRS_STOPPED), result.2) := by
  simp only [Session.resume, resumeToWait, unaware.checkForBreakpointsAndStep_eq, Option.map_some,
    Option.bind_eq_bind, Option.bind_some]
  cases returned : session.machResumeThreadsAndTask.internalWait SIG_TRAP with
  | none => rfl
  | some result =>
      have stopped := unaware.machResumeThreadsAndTask.wait returned
      simp only [Option.bind_some, Option.map_some, stopped.checkForBreakpointsAndStepBack_eq]
      by_cases isStop : result.1 = .PRS_STOPPED
      · simp only [isStop, ne_eq, not_true_eq_false, if_false, decide_true]
        rfl
      · simp only [isStop, ne_eq, not_false_eq_true, if_true, decide_false]
        rfl

theorem resume (unaware : Unaware stop session) (resumed : session.resume = some (answer, after)) :
    Unaware stop after ∧ LooksOn session after := by
  rw [unaware.resume_eq] at resumed
  rcases Option.map_eq_some_iff.mp resumed with ⟨⟨state, waited⟩, returned, result⟩
  obtain rfl : waited = after := congrArg Prod.snd result
  refine ⟨unaware.machResumeThreadsAndTask.wait returned, ?_⟩
  exact (LooksOn.machResumeThreadsAndTask session).trans (.wait returned)

theorem resumeWhileStopped (unaware : Unaware stop session) {turns : Nat}
    (resumed : session.resumeWhileStopped turns = some after) : LooksOn session after := by
  induction turns generalizing session with
  | zero => cases resumed
  | succ turns ih =>
      simp only [Session.resumeWhileStopped, Option.bind_eq_bind, Option.bind_eq_some_iff,
        Prod.exists] at resumed
      rcases resumed with ⟨stopped, next, first, rest⟩
      rcases unaware.resume first with ⟨still, looks⟩
      split at rest
      · exact looks.trans (ih still rest)
      · obtain rfl : next = after := by simpa using rest
        exact looks

end Unaware

/-! ## The breakpoint -/

/-- Where there have been no breakpoints, there is one when one has been planted. -/
theorem at_plant (none : session.breakpoints = []) (noTransient : session.transientBreakpoints = [])
    (stop : Address) : At (· = stop) (session.plant stop) := by
  have created : At (· = stop) (session.createBreakpoint stop).2 := by
    refine ⟨noTransient, ?_⟩
    rintro _ ⟨breakpoint, present, rfl⟩
    simp only [createBreakpoint, BreakpointState.createBreakpoint, withBreakpointState,
      breakpointState, none, noTransient, List.nil_append, List.append_nil,
      List.mem_singleton] at present
    rw [present]
  exact created.operates (.operation (.enable _ _ true))

/-- What the process object knows of threads is what new objects hold. -/
theorem unaware_plant {launch : Launch} (events : List WaitEvent)
    (misses : ∀ port, (launch.uninitialized port).state32.Misses stop) :
    Unaware stop ((launch.session events).plant stop) := by
  have gathered :
      (MDBProcess.create launch.uninitialized).Gathered (launch.session events).process :=
    .gatherThreads _ launch.child
  refine ⟨gathered.is64Bit, gathered.distinct List.nodup_nil, ?_, at_plant rfl rfl stop⟩
  intro port
  have cached := gathered.state32 rfl port
  exact cached ▸ misses port

end Session

/-! ## The entry point -/

theorem SymbolName.equals_of_characters {buffer name : List Byte} {symbol : SymbolName}
    (characters : symbol.characters buffer = some name) : symbol.equals buffer name = true := by
  cases symbol with
  | ENTRY_POINT_SYMBOL_NAME =>
      simp only [SymbolName.characters, Option.some.injEq] at characters
      simp only [SymbolName.equals, characters, decide_true]
  | inBuffer position =>
      have stored := prefix_of_untilZero characters
      simp only [SymbolName.equals, equalsAt_eq_true_iff.mpr stored, decide_true]

/-- The name is found to stand for the first program text of the file that was loaded first. -/
theorem findSymbol_entryPoint {file : MDBMachFile} {machImage : MachImage} {stop : Address}
    {entryPoints : List Address} {files : List MDBMachFile} (recovers : file.Recovers machImage)
    (entry : MachImage.entryPoints machImage.commands = stop :: entryPoints)
    (loaded : [file] <+: files) :
    ∃ symbol, findSymbolByNameOrAddress files (some entryPointName) 0 = some symbol ∧
      symbol.address = stop := by
  have named := recovers.symbols
  simp only [entry, List.map_cons, List.cons_append, MDBMachFile.namedSymbols] at named
  rcases List.map_eq_cons_iff.mp named with ⟨symbol, others, symbols, first, -⟩
  simp only [Prod.mk.injEq] at first
  rcases loaded with ⟨rest, rfl⟩
  refine ⟨symbol, ?_, first.2⟩
  have equal := SymbolName.equals_of_characters first.1
  simp only [findSymbolByNameOrAddress, List.singleton_append, List.findSome?_cons, symbols,
    List.find?_cons, Option.getD_some, equal, Bool.true_or]

/-- If there is a process, it is that of the child, with its threads gathered. -/
theorem process_of_createProcess {launch : Launch} {debugger : Launcher} {object : ProcessObject}
    {created : Bool} (returned : nothingLaunched.createProcess launch = some (created, debugger))
    (present : debugger.process.bind (debugger.objects[·]?) = some object) :
    object.process = (MDBProcess.create launch.uninitialized).gatherThreads launch.child := by
  by_cases child : launch.childPid = 0
  · -- In the child the pointer is still null, also where it is told that all went well.
    have same : debugger = nothingLaunched := by
      simp only [Launcher.createProcess, child, if_true] at returned
      split at returned
      · simp_all
      · split at returned
        · simp_all
        · split at returned <;> simp_all
    rw [same] at present
    cases present
  · rcases createProcess_cases child returned with attached | unchanged
    · obtain rfl : debugger = (nothingLaunched.attach launch).2 := congrArg Prod.snd attached
      simp only [Launcher.attach] at present
      split at present
      · cases present
      · obtain rfl : _ = object := Option.some.inj present
        rfl
    · obtain rfl : debugger = nothingLaunched := congrArg Prod.snd unchanged
      cases present

/--
However the program behaves that the test driver starts from a well-formed image, and whatever
new objects hold as long as it is not the address of the entry point or the one behind it: the
driver returns false, and once it has planted its breakpoint at the entry point it only lets the
program run. Each event takes place on the very memory and registers that the event before left,
no thread is stepped back and no callback is run.
-/
theorem MDBDebuggerTest0.run_looksOn {machFiles : MachFiles} {depth : Nat}
    {fileName image content : List Byte} {launch : Launch} {events : List WaitEvent}
    {machImage : MachImage} {file : MDBMachFile} {log : MDBLog} {answer : Bool} {stop : Address}
    {entryPoints : List Address} {final : Option Session}
    (parsed : machFiles.parse fileName = some file)
    (read : MDBMachFile.parse log (some content) (.create fileName) = some (true, file))
    (wellFormed : WellFormed image machImage) (fileOf : FileOf image content)
    (entry : MachImage.entryPoints machImage.commands = stop :: entryPoints)
    (misses : ∀ port, (launch.uninitialized port).state32.Misses stop)
    (ran : run machFiles depth fileName launch events = some (answer, final)) :
    answer = false ∧ ∀ last, final = some last →
      last.reached = [] ∧ Session.LooksOn ((launch.session events).plant stop) last := by
  have recovers := MDBMachFile.recovers_of_parse wellFormed fileOf read
  simp only [run, Option.bind_eq_bind, Option.bind_eq_some_iff, Prod.exists] at ran
  rcases ran with ⟨created, debugger, returned, ran⟩
  split at ran
  · simp only [Option.pure_def, Option.some.injEq, Prod.mk.injEq] at ran
    rcases ran with ⟨rfl, rfl⟩
    exact ⟨rfl, nofun⟩
  · simp only [Option.bind_eq_some_iff, Prod.exists] at ran
    rcases ran with
      ⟨object, present, accepted, files, loaded, symbol, found, last, resumed, result⟩
    simp only [Option.pure_def, Option.some.injEq, Prod.mk.injEq] at result
    rcases result with ⟨rfl, rfl⟩
    have first := (MachFiles.prefix_of_loadSymbols loaded).2 _ parsed
    rcases findSymbol_entryPoint recovers entry first with ⟨_, located, rfl⟩
    obtain rfl := Option.some.inj (located.symm.trans found)
    have process := process_of_createProcess returned (Option.bind_eq_some_iff.mpr present)
    simp only [process] at resumed
    have looks := (Session.unaware_plant events misses).resumeWhileStopped resumed
    refine ⟨rfl, ?_⟩
    rintro _ ⟨⟩
    exact ⟨looks.reached, looks⟩

/-! ## A program with one text -/

/-- An executable with its program text at 0x1000 and an empty symbol table. -/
def textImage : List Byte :=
  wordBytes [0xfeedface, 7, 3, 2, 2, 148, 0] ++
  -- `LC_SEGMENT` for `__TEXT`
  wordBytes [0x1, 124, 0x45545f5f, 0x5458, 0, 0, 0x1000, 0x1000, 0, 0x1000, 7, 5, 1, 0] ++
  -- `__text`
  wordBytes [0x65745f5f, 0x7478, 0, 0, 0x45545f5f, 0x5458, 0, 0, 0x1000, 16, 0, 0, 0, 0, 0, 0, 0] ++
  -- `LC_SYMTAB`
  wordBytes [0x2, 24, 176, 0, 176, 0]

def textMachImage : MachImage where
  filetype := MH_EXECUTE
  commands := [
    .segment (wordBytes [0x65745f5f, 0x7478, 0, 0]) (wordBytes [0x45545f5f, 0x5458, 0, 0])
      0x1000#32,
    .symtab []]

set_option maxRecDepth 4000 in
theorem wellFormed_textImage : WellFormed textImage textMachImage where
  magic := rfl
  filetypeAt := rfl
  filetype := Or.inl rfl
  ncmds := ⟨2#32, rfl, rfl⟩
  commands := by
    have sectname : wordBytes [0x65745f5f, 0x7478, 0, 0] <+: textImage.drop 84 := by decide
    have segname : wordBytes [0x45545f5f, 0x5458, 0, 0] <+: textImage.drop 100 := by decide
    have segment : CommandAt textImage 28 textMachImage.commands[0] :=
      .segment rfl (by decide) ⟨rfl, sectname⟩ ⟨rfl, segname⟩ rfl
    have symtab : CommandAt textImage 152 textMachImage.commands[1] := by
      apply CommandAt.symtab rfl rfl rfl rfl rfl
      intro i entry present
      cases present
    exact .cons segment rfl (.cons symtab rfl .nil)
  symtab := rfl

/-- What the reader makes of the executable. -/
def textFile : MDBMachFile := ⟨[0x61#8], textImage, [entryPoint 0x1000#64], []⟩

/-- There is one file. -/
def oneMachFile : MachFiles where
  parse fileName := if fileName = [0x61#8] then some textFile else none
  fileName parsed := by
    simp only [Option.ite_none_right_eq_some, Option.some.injEq] at parsed
    rw [← parsed.2, parsed.1]
    rfl
  dylibNames parsed dylib present := by
    simp only [Option.ite_none_right_eq_some, Option.some.injEq] at parsed
    rw [← parsed.2] at present
    cases present
  finite := by
    apply (Set.finite_singleton [0x61#8]).subset
    intro fileName parsed
    by_contra other
    simp only [Set.mem_singleton_iff] at other
    simp [other] at parsed

/-- A launch of it whose child stops at once, and then exits in its free run. -/
def textLaunch : Launch := launchWith 0 [.reported (.stopped SIG_TRAP)] (true, 7)

def textEvents : List WaitEvent := [fun target => some (target, .exited 0)]

set_option maxRecDepth 4000 in
theorem parse_textImage :
    MDBMachFile.parse (.create none) (some textImage) (.create [0x61#8]) =
      some (true, textFile) := rfl

theorem misses_textLaunch (port : ThreadPort) :
    (textLaunch.uninitialized port).state32.Misses 0x1000#64 := by
  change (default : MDBThreadState32).Misses 0x1000#64
  constructor <;> decide

theorem MDBDebuggerTest0.run_looksOn_textImage :
    ∃ last, run oneMachFile 1 [0x61#8] textLaunch textEvents = some (false, some last) ∧
      last.reached = [] ∧
      Session.LooksOn ((textLaunch.session textEvents).plant 0x1000#64) last := by
  obtain ⟨last, resumed⟩ : ∃ last,
      ((textLaunch.session textEvents).plant 0x1000#64).resumeWhileStopped 2 = some last := by
    rw [Session.resumeWhileStopped, (Session.unaware_plant _ misses_textLaunch).resume_eq]
    exact ⟨_, rfl⟩
  have ran : run oneMachFile 1 [0x61#8] textLaunch textEvents = some (false, some last) :=
    congrArg (fun result => result.bind fun session => some (false, some session)) resumed
  have looks := run_looksOn rfl parse_textImage wellFormed_textImage .thin rfl misses_textLaunch ran
  exact ⟨last, ran, looks.2 last rfl⟩

end RustDbg
