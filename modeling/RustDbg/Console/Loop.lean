import RustDbg.Console.Commands
import RustDbg.Debugger.Life

/-!
# The loop of the console

`MDBConsole::run` for a process that has been attached to. A line that readline returns is
run as a command, and an empty one is overwritten with the command before it, in the buffer
that readline has allocated for it. The debugger sees a run of its own commands, and the loop
ends by itself iff one of them observes that the process exits.
-/

namespace RustDbg

open Buffer

/-- An array of `char`. -/
abbrev CharArray (size : Nat) := { bytes : List Byte // bytes.length = size }

def CharArray.zeros (size : Nat) : CharArray size :=
  ⟨List.replicate size 0#8, List.length_replicate⟩

/-- `strcpy` into an array, which has to hold the string and its terminator. -/
def strcpy {size : Nat} (dst : CharArray size) (src : List Byte) :
    Option (CharArray size) := do
  let str ← untilZero src
  if fits : str.length < size then
    return ⟨str ++ 0#8 :: dst.1.drop (str.length + 1), by
      rw [List.length_append, List.length_cons, List.length_drop, dst.2]
      omega⟩
  else none

/-- A line that readline returns, and what its buffer holds behind the terminator. -/
structure TypedLine where
  characters : List Byte
  nonzero : 0#8 ∉ characters
  behind : List Byte

def TypedLine.buffer (line : TypedLine) : List Byte := line.characters ++ 0#8 :: line.behind

/-- How the loop of `MDBConsole::run` stands after some lines. -/
inductive ConsoleEnd where
  /-- It asks for another line. -/
  | asks
  /-- The program has called `exit(0)`. -/
  | exits
  /-- The loop has been left, as the process is not running any more. -/
  | terminated
  /-- A null pointer has been followed, or an array has been left. -/
  | undefined
deriving DecidableEq, Repr

namespace ConsoleCallback

/-- The callback, which leaves the debugger alone where it only writes to the log. -/
def execute (session : Session) : ConsoleCallback → Option (ConsoleEnd × Session)
  | .commandQuit => some (.exits, session)
  | .commandInfo => some (.asks, session)
  | .commandPrintBackTrace => some (.asks, session)
  | .commandResume => session.resume.map fun result => (.asks, result.2)
  | .commandStep => (session.step 0).map fun result => (.asks, result.2)
  | .commandProfile => some (.asks, session)

end ConsoleCallback

/-- The console and the variables of `MDBConsole::run`. -/
structure Console where
  /-- `MDBConsole::debugger` -/
  session : Session
  /-- Not initialised until the first line has been copied into it. -/
  lastCommand : Option (CharArray 1024)
  /-- The lines that have been passed to `add_history`. -/
  history : List (List Byte)
  /-- What `printf` has written. -/
  printed : List Byte

/-- The buffer of a line, with the last command in it where the line is empty. -/
def lineBuffer (lastCommand : Option (CharArray 1024)) (line : TypedLine) :
    Option (CharArray line.buffer.length) := do
  let str ← untilZero line.buffer
  if str.length = 0 then
    let command ← lastCommand
    strcpy ⟨line.buffer, rfl⟩ command.1
  else return ⟨line.buffer, rfl⟩

/-- The line that an iteration runs, and `lastCommand` then; none where it is undefined. -/
def readCommand (lastCommand : Option (CharArray 1024)) :
    Option TypedLine → Option (List Byte × CharArray 1024)
  | none => none
  | some line => do
      let buffer ← lineBuffer lastCommand line
      -- What an array that is not initialised holds behind the terminator is never read.
      let lastCommand ← strcpy (lastCommand.getD (.zeros 1024)) buffer.1
      let command ← untilZero buffer.1
      return (command, lastCommand)

namespace Console

/-- `MDBConsole::runCommand`: whether there is such a command, and what has become of the loop. -/
def runCommand (console : Console) (line : List Byte) : Option (Bool × ConsoleEnd × Console) :=
  match matchingCommand line with
  | none => some (false, .asks, console)
  | some command => (command.callback.execute console.session).map fun result =>
      (true, result.1, { console with session := result.2 })

def print (console : Console) (text : List Byte) : Console :=
  { console with printed := console.printed ++ text }

/-- What an iteration does behind `runCommand`, if that returns. -/
def leaveIfTerminated (console : Console) : ConsoleEnd × Console :=
  if console.session.process.running = false then
    (.terminated, console.print (ascii "process terminated, exiting ...\n"))
  else (.asks, console)

/-- The loop body for the line that is run. -/
def serve (console : Console) (line : List Byte) : Option (ConsoleEnd × Console) := do
  let (found, ending, console) ← console.runCommand line
  if ending = .exits then return (.exits, console)
  else if found then return console.leaveIfTerminated
  else return (console.print (ascii "command " ++ line ++ ascii " not found\n")).leaveIfTerminated

/-- An iteration of the loop of `MDBConsole::run`; none where a command does not return. -/
def turn (console : Console) (input : Option TypedLine) : Option (ConsoleEnd × Console) :=
  match readCommand console.lastCommand input with
  | none => some (.undefined, console)
  | some (line, lastCommand) =>
      serve { console with lastCommand := some lastCommand, history := console.history ++ [line] }
        line

/-- The loop of `MDBConsole::run`, for what `readline` returns one after the other. -/
def run (console : Console) : List (Option TypedLine) → Option (ConsoleEnd × Console)
  | [] => some (.asks, console)
  | input :: rest =>
      match console.turn input with
      | none => none
      | some (.asks, next) => next.run rest
      | some (ending, last) => some (ending, last)

end Console

/-! ## Reading a line -/

/-- The line that was copied into `lastCommand`, if any was. -/
def lastLine (lastCommand : Option (CharArray 1024)) : Option (List Byte) :=
  lastCommand.bind fun array => untilZero array.1

/-- The line that is run for what readline returns, given the one that was run before. -/
def lineAfter (last : Option (List Byte)) : Option TypedLine → Option (List Byte)
  | none => last
  | some line => if line.characters = [] then last else some line.characters

/--
An iteration stays in its arrays: an empty line has room for the one before it, and another one
is short enough to be kept.
-/
def Fits (last : Option (List Byte)) : Option TypedLine → Prop
  | none => False
  | some line =>
      if line.characters = [] then ∃ command, last = some command ∧
        command.length ≤ line.behind.length
      else line.characters.length < 1024

theorem untilZero_bounds {bytes str : List Byte} (found : untilZero bytes = some str) :
    0#8 ∉ str ∧ str.length < bytes.length := by
  induction bytes generalizing str with
  | nil => cases found
  | cons byte rest ih =>
      rw [untilZero] at found
      split at found
      · cases found
        simp
      · rename_i nonzero
        rcases Option.map_eq_some_iff.mp found with ⟨others, othersFound, rfl⟩
        rcases ih othersFound with ⟨notMem, shorter⟩
        simp only [List.mem_cons, not_or, List.length_cons]
        exact ⟨⟨Ne.symm nonzero, notMem⟩, by omega⟩

theorem strcpy_eq_some {size : Nat} {src str : List Byte} (dst : CharArray size)
    (found : untilZero src = some str) (fits : str.length < size) :
    ∃ after, strcpy dst src = some after ∧ untilZero after.1 = some str := by
  simp only [strcpy, found, Option.bind_eq_bind, Option.bind_some, Option.pure_def]
  refine ⟨_, dif_pos fits, ?_⟩
  apply untilZero_append
  exact (untilZero_bounds found).1

theorem strcpy_eq_none {size : Nat} {src : List Byte} (dst : CharArray size)
    (long : ∀ str, untilZero src = some str → size ≤ str.length) : strcpy dst src = none := by
  cases found : untilZero src with
  | none => simp [strcpy, found]
  | some str =>
      have outside : ¬str.length < size := Nat.not_lt_of_le (long str found)
      simp [strcpy, found, outside]

section Lines

variable {lastCommand : Option (CharArray 1024)} {input : Option TypedLine} {line : TypedLine}

theorem TypedLine.untilZero_buffer (line : TypedLine) :
    untilZero line.buffer = some line.characters :=
  untilZero_append line.nonzero line.behind

theorem TypedLine.length_buffer (line : TypedLine) :
    line.buffer.length = line.characters.length + line.behind.length + 1 := by
  rw [buffer, List.length_append, List.length_cons]
  omega

theorem lineBuffer_of_nonempty (nonempty : line.characters ≠ []) :
    lineBuffer lastCommand line = some ⟨line.buffer, rfl⟩ := by
  have positive : line.characters.length ≠ 0 := by simpa using nonempty
  simp [lineBuffer, line.untilZero_buffer, nonempty]

theorem lineBuffer_of_empty (empty : line.characters = []) :
    lineBuffer lastCommand line =
      lastCommand.bind fun array => strcpy ⟨line.buffer, rfl⟩ array.1 := by
  simp [lineBuffer, line.untilZero_buffer, empty]

theorem readCommand_of_fits (fits : Fits (lastLine lastCommand) input) :
    ∃ command after, readCommand lastCommand input = some (command, after) ∧
      lineAfter (lastLine lastCommand) input = some command ∧
      untilZero after.1 = some command := by
  cases input with
  | none => exact fits.elim
  | some line =>
      simp only [Fits] at fits
      simp only [lineAfter]
      split at fits
      · rename_i empty
        rcases fits with ⟨command, found, room⟩
        rcases Option.bind_eq_some_iff.mp found with ⟨array, written, found'⟩
        have inLine : command.length < line.buffer.length := by
          rw [line.length_buffer]
          omega
        have inLast : command.length < 1024 := by
          have shorter := (untilZero_bounds found').2
          rwa [array.2] at shorter
        rcases strcpy_eq_some ⟨line.buffer, rfl⟩ found' inLine with ⟨buffer, copied, held⟩
        rcases strcpy_eq_some array held inLast with ⟨after, kept, keptHeld⟩
        refine ⟨command, after, ?_, by rwa [if_pos empty], keptHeld⟩
        simp [readCommand, lineBuffer_of_empty empty, written, copied, kept, held]
      · rename_i nonempty
        rcases strcpy_eq_some (lastCommand.getD (.zeros 1024)) line.untilZero_buffer fits with
          ⟨after, kept, held⟩
        refine ⟨line.characters, after, ?_, by rw [if_neg nonempty], held⟩
        simp [readCommand, lineBuffer_of_nonempty nonempty, kept, line.untilZero_buffer]

theorem readCommand_of_not_fits (unfit : ¬Fits (lastLine lastCommand) input) :
    readCommand lastCommand input = none := by
  cases input with
  | none => rfl
  | some line =>
      simp only [Fits] at unfit
      split at unfit
      · rename_i empty
        cases written : lastCommand with
        | none => simp [readCommand, lineBuffer_of_empty empty]
        | some array =>
            have long : ∀ str, untilZero array.1 = some str → line.buffer.length ≤ str.length := by
              intro str found
              have outside : ¬str.length ≤ line.behind.length :=
                fun room => unfit ⟨str, by rwa [written], room⟩
              have length_eq := line.length_buffer
              simp only [empty, List.length_nil] at length_eq
              omega
            simp [readCommand, lineBuffer_of_empty empty, strcpy_eq_none _ long]
      · rename_i nonempty
        have long : ∀ str, untilZero line.buffer = some str → 1024 ≤ str.length := by
          intro str found
          rw [line.untilZero_buffer] at found
          rcases Option.some.inj found with rfl
          omega
        simp [readCommand, lineBuffer_of_nonempty nonempty, strcpy_eq_none _ long]

end Lines

/-! ## Running a line -/

/-- What a callback lets the debugger do. -/
def ConsoleCallback.command : ConsoleCallback → Option Command
  | .commandResume => some .resume
  | .commandStep => some (.step 0)
  | _ => none

def debuggerCommand (line : List Byte) : Option Command :=
  (matchingCommand line).bind (·.callback.command)

def Quits (line : List Byte) : Prop :=
  (matchingCommand line).map (·.callback) = some .commandQuit

instance (line : List Byte) : Decidable (Quits line) := inferInstanceAs (Decidable (_ = _))

/-- The lines that are run one after the other. -/
def linesRun (last : Option (List Byte)) : List (Option TypedLine) → List (List Byte)
  | [] => []
  | input :: rest => (lineAfter last input).getD [] :: linesRun (lineAfter last input) rest

namespace Console

variable {console next after : Console} {line command : List Byte} {ending : ConsoleEnd}
  {inputs used rest : List (Option TypedLine)} {ud : Udis86}

theorem ending_of_leaveIfTerminated (left : console.leaveIfTerminated = (ending, after)) :
    after.session = console.session ∧ after.history = console.history ∧
      after.lastCommand = console.lastCommand ∧
      ending = if after.session.process.running = false then .terminated else .asks := by
  rw [leaveIfTerminated] at left
  split at left
  · rename_i stopped
    rcases Prod.mk.inj left with ⟨rfl, rfl⟩
    exact ⟨rfl, rfl, rfl, (if_pos stopped).symm⟩
  · rename_i running
    rcases Prod.mk.inj left with ⟨rfl, rfl⟩
    exact ⟨rfl, rfl, rfl, (if_neg running).symm⟩

/-- A callback performs its command, and only one of them ends the program. -/
theorem performed_of_execute (ud : Udis86) {callback : ConsoleCallback} {session last : Session}
    (executed : callback.execute session = some (ending, last)) :
    Transition.run (Session.perform ud) session callback.command.toList = some last ∧
      ending = if callback = .commandQuit then .exits else .asks := by
  cases callback with
  | commandResume =>
      rcases Option.map_eq_some_iff.mp executed with ⟨result, resumed, result_eq⟩
      rcases Prod.mk.inj result_eq with ⟨rfl, rfl⟩
      refine ⟨Transition.run_cons_eq_some.mpr ⟨_, ?_, rfl⟩, rfl⟩
      simp [Session.perform, resumed]
  | commandStep =>
      rcases Option.map_eq_some_iff.mp executed with ⟨result, stepped, result_eq⟩
      rcases Prod.mk.inj result_eq with ⟨rfl, rfl⟩
      refine ⟨Transition.run_cons_eq_some.mpr ⟨_, ?_, rfl⟩, rfl⟩
      simp [Session.perform, stepped]
  | _ =>
      cases executed
      exact ⟨rfl, rfl⟩

/-- What running a line does, whatever becomes of the loop. -/
structure Serves (ud : Udis86) (console : Console) (line : List Byte) (ending : ConsoleEnd)
    (after : Console) : Prop where
  performed : Transition.run (Session.perform ud) console.session (debuggerCommand line).toList =
    some after.session
  history : after.history = console.history
  lastCommand : after.lastCommand = console.lastCommand
  ending_eq : ending = if Quits line then .exits
    else if after.session.process.running = false then .terminated else .asks

theorem serves_of_serve (ud : Udis86) (served : console.serve line = some (ending, after)) :
    Serves ud console line ending after := by
  cases found : matchingCommand line with
  | none =>
      have nothing : debuggerCommand line = none := by simp [debuggerCommand, found]
      have stays : ¬Quits line := by simp [Quits, found]
      simp only [serve, runCommand, found, Option.bind_eq_bind, Option.bind_some, reduceCtorEq,
        if_false, Bool.false_eq_true, Option.pure_def, Option.some.injEq] at served
      rcases ending_of_leaveIfTerminated served with ⟨session, history, lastCommand, ending_eq⟩
      refine ⟨?_, history, lastCommand, by rwa [if_neg stays]⟩
      rw [nothing, session]
      rfl
  | some command =>
      have performs : debuggerCommand line = command.callback.command := by
        simp [debuggerCommand, found]
      have quits : Quits line ↔ command.callback = .commandQuit := by simp [Quits, found]
      simp only [serve, runCommand, found, Option.bind_eq_bind, Option.bind_map,
        Option.bind_eq_some_iff, Prod.exists, Function.comp_apply] at served
      rcases served with ⟨first, session, executed, served⟩
      rcases performed_of_execute ud executed with ⟨performed, first_eq⟩
      rw [← performs] at performed
      split at served
      · rename_i exits
        rcases Prod.mk.inj (Option.some.inj served) with ⟨rfl, rfl⟩
        have quit : command.callback = .commandQuit := by
          by_contra other
          simp [exits, other] at first_eq
        exact ⟨performed, rfl, rfl, (if_pos (quits.mpr quit)).symm⟩
      · rename_i asks
        have other : ¬Quits line := by
          intro quit
          rw [if_pos (quits.mp quit)] at first_eq
          exact asks first_eq
        simp only [if_true, Option.pure_def, Option.some.injEq] at served
        rcases ending_of_leaveIfTerminated served with ⟨session_eq, history, last, ending_eq⟩
        refine ⟨?_, history, last, by rwa [if_neg other]⟩
        rwa [session_eq]

/-! ## Running all lines -/

variable {input : Option TypedLine}

theorem turn_of_not_fits (unfit : ¬Fits (lastLine console.lastCommand) input) :
    console.turn input = some (.undefined, console) := by
  rw [turn, readCommand_of_not_fits unfit]

/-- An iteration that runs a line. -/
structure Turns (ud : Udis86) (console : Console) (input : Option TypedLine) (line : List Byte)
    (ending : ConsoleEnd) (after : Console) : Prop where
  read : lineAfter (lastLine console.lastCommand) input = some line
  kept : lastLine after.lastCommand = some line
  history : after.history = console.history ++ [line]
  performed : Transition.run (Session.perform ud) console.session (debuggerCommand line).toList =
    some after.session
  ending_eq : ending = if Quits line then .exits
    else if after.session.process.running = false then .terminated else .asks

theorem turns_of_fits (ud : Udis86) (fits : Fits (lastLine console.lastCommand) input)
    (turned : console.turn input = some (ending, after)) :
    ∃ line, Turns ud console input line ending after := by
  rcases readCommand_of_fits fits with ⟨line, lastCommand, read, line_eq, held⟩
  simp only [turn, read] at turned
  rcases serves_of_serve ud turned with ⟨performed, history, last_eq, ending_eq⟩
  refine ⟨line, line_eq, ?_, history, performed, ending_eq⟩
  rw [last_eq]
  exact held

theorem Turns.linesRun_cons (turns : Turns ud console input line ending next)
    (used : List (Option TypedLine)) :
    linesRun (lastLine console.lastCommand) (input :: used) =
      line :: linesRun (lastLine next.lastCommand) used := by
  rw [linesRun, turns.read, turns.kept, Option.getD_some]

theorem run_cons_of_ne_asks (turned : console.turn input = some (ending, after))
    (left : ending ≠ .asks) : console.run (input :: rest) = some (ending, after) := by
  cases ending with
  | asks => exact absurd rfl left
  | _ => rw [run, turned]

/-- A run of the loop up to some line is one of the debugger. -/
structure Runs (ud : Udis86) (console : Console) (used rest : List (Option TypedLine))
    (ending : ConsoleEnd) (after : Console) : Prop where
  performed : Transition.run (Session.perform ud) console.session
    ((linesRun (lastLine console.lastCommand) used).filterMap debuggerCommand) =
      some after.session
  history : after.history = console.history ++ linesRun (lastLine console.lastCommand) used
  asks : ending = .asks → rest = []
  exits : ending = .exits ↔
    ∃ line ∈ (linesRun (lastLine console.lastCommand) used).getLast?, Quits line
  terminated : ending = .terminated ↔ after.session.process.running = false

theorem Runs.refl (running : console.session.process.running = true)
    (asks : ending = .asks → rest = []) (inside : ending = .asks ∨ ending = .undefined) :
    Runs ud console [] rest ending console where
  performed := rfl
  history := by simp [linesRun]
  asks := asks
  exits := by rcases inside with rfl | rfl <;> simp [linesRun]
  terminated := by rcases inside with rfl | rfl <;> simp [running]

/-- The loop is left behind the line. -/
theorem Runs.single (running : console.session.process.running = true)
    (turns : Turns ud console input line ending after) (left : ending ≠ .asks) :
    Runs ud console [input] rest ending after := by
  have lines_eq : linesRun (lastLine console.lastCommand) [input] = [line] :=
    turns.linesRun_cons []
  have ending_eq := turns.ending_eq
  constructor
  · rw [lines_eq]
    have performed := turns.performed
    cases command : debuggerCommand line <;> simpa [command] using performed
  · rw [lines_eq]
    exact turns.history
  · exact fun asks => absurd asks left
  · rw [lines_eq]
    split at ending_eq
    · simp_all
    · split at ending_eq <;> simp_all
  · split at ending_eq
    · rename_i quits
      -- `quit` is no command of the debugger.
      have nothing : debuggerCommand line = none := by
        rcases Option.map_eq_some_iff.mp quits with ⟨command, found, callback_eq⟩
        simp [debuggerCommand, found, callback_eq, ConsoleCallback.command]
      have performed := turns.performed
      simp only [nothing, Option.toList_none, Transition.run_nil, Option.some.injEq] at performed
      rw [ending_eq, ← performed, running]
      simp
    · split at ending_eq <;> simp_all

theorem Turns.stays (turns : Turns ud console input line .asks next) : ¬Quits line := by
  intro quits
  have ending_eq := turns.ending_eq
  rw [if_pos quits] at ending_eq
  cases ending_eq

theorem Turns.stillRunning (turns : Turns ud console input line .asks next) :
    next.session.process.running = true := by
  have ending_eq := turns.ending_eq
  rw [if_neg turns.stays] at ending_eq
  by_contra stopped
  rw [if_pos (Bool.eq_false_of_not_eq_true stopped)] at ending_eq
  cases ending_eq

/-- The loop goes on behind the line. -/
theorem Runs.later (turns : Turns ud console input line .asks next)
    (runs : Runs ud next used rest ending after) :
    Runs ud console (input :: used) rest ending after := by
  have lines_eq := turns.linesRun_cons used
  constructor
  · have split : (line :: linesRun (lastLine next.lastCommand) used).filterMap debuggerCommand =
        (debuggerCommand line).toList ++
          (linesRun (lastLine next.lastCommand) used).filterMap debuggerCommand := by
      rw [List.filterMap_cons]
      cases debuggerCommand line <;> rfl
    rw [lines_eq, split, Transition.run_append, turns.performed]
    exact runs.performed
  · rw [lines_eq, runs.history, turns.history, List.append_assoc]
    rfl
  · exact runs.asks
  · rw [lines_eq, runs.exits]
    cases linesRun (lastLine next.lastCommand) used with
    | nil => simp [turns.stays]
    | cons second others => rw [List.getLast?_cons_cons]
  · exact runs.terminated

theorem runs_of_run (ud : Udis86) (running : console.session.process.running = true)
    (ran : console.run inputs = some (ending, after)) :
    ∃ used rest, inputs = used ++ rest ∧ Runs ud console used rest ending after := by
  induction inputs generalizing console with
  | nil =>
      rw [run] at ran
      rcases Prod.mk.inj (Option.some.inj ran) with ⟨rfl, rfl⟩
      exact ⟨[], [], rfl, .refl running (fun _ => rfl) (Or.inl rfl)⟩
  | cons input inputs ih =>
      by_cases fits : Fits (lastLine console.lastCommand) input
      · cases turned : console.turn input with
        | none =>
            rw [run, turned] at ran
            cases ran
        | some result =>
            rcases result with ⟨first, next⟩
            rcases turns_of_fits ud fits turned with ⟨line, turns⟩
            by_cases asks : first = .asks
            · rw [asks] at turned turns
              rw [run, turned] at ran
              rcases ih turns.stillRunning ran with ⟨used, rest, rfl, runs⟩
              exact ⟨input :: used, rest, rfl, runs.later turns⟩
            · rw [run_cons_of_ne_asks turned asks] at ran
              rcases Prod.mk.inj (Option.some.inj ran) with ⟨rfl, rfl⟩
              exact ⟨[input], inputs, rfl, .single running turns asks⟩
      · rw [run_cons_of_ne_asks (turn_of_not_fits fits) (by decide)] at ran
        rcases Prod.mk.inj (Option.some.inj ran) with ⟨rfl, rfl⟩
        exact ⟨[], _, rfl, .refl running (by simp) (Or.inr rfl)⟩

/--
A run of the loop is a run of the debugger's commands that the lines stand for, with every empty
line standing for the one before; the loop ends with `quit`, and by itself iff an exit of the
process was observed. If the process is killed by a signal, it goes on asking.
-/
theorem run_performs (running : console.session.process.running = true)
    (unobserved : console.session.observed = []) (unwaited : console.session.waits = [])
    (ran : console.run inputs = some (ending, after)) :
    ∃ used rest, inputs = used ++ rest ∧ Runs ud console used rest ending after ∧
      (ending = .terminated ↔ ∃ code, .exited code ∈ after.session.observed) := by
  rcases runs_of_run ud running ran with ⟨used, rest, split, runs⟩
  have history := (Session.History.initial running unobserved unwaited).run runs.performed
  exact ⟨used, rest, split, runs, runs.terminated.trans history.running⟩

theorem Turns.defined (turns : Turns ud console input line ending next) :
    ending ≠ .undefined := by
  have ending_eq := turns.ending_eq
  rintro rfl
  split at ending_eq
  · cases ending_eq
  · split at ending_eq <;> cases ending_eq

/-- A console whose process exits at the first wait, before the first line. -/
def untilExit : Console where
  session := Session.attachedUntil (.exited 0)
  lastCommand := none
  history := []
  printed := []

/-- A line in a buffer with some room. -/
def typed (characters : String) (nonzero : 0#8 ∉ ascii characters) (room : Nat) : TypedLine where
  characters := ascii characters
  nonzero
  behind := List.replicate room 0#8

theorem run_performs_untilExit :
    ∃ ending after, untilExit.run [typed "info" (by decide) 0, typed "" (by decide) 4,
        typed "step" (by decide) 0] = some (ending, after) ∧
      ∃ used rest, [some (typed "info" (by decide) 0), some (typed "" (by decide) 4),
          some (typed "step" (by decide) 0)] = used ++ rest ∧
        Runs (fun _ => ⟨0, .other 0⟩) untilExit used rest ending after ∧
        (ending = .terminated ↔ ∃ code, .exited code ∈ after.session.observed) := by
  obtain ⟨⟨ending, after⟩, ran⟩ : ∃ result, untilExit.run [typed "info" (by decide) 0,
      typed "" (by decide) 4, typed "step" (by decide) 0] = some result :=
    Option.isSome_iff_exists.mp (by decide)
  exact ⟨ending, after, ran, run_performs rfl rfl rfl ran⟩

/-- The loop gets to something that does not fit into its arrays. -/
def Overruns (console : Console) (inputs : List (Option TypedLine)) : Prop :=
  ∃ front input rest middle, inputs = front ++ input :: rest ∧
    console.run front = some (.asks, middle) ∧
    ¬Fits (front.foldl lineAfter (lastLine console.lastCommand)) input

theorem run_cons_asks_iff : console.run (input :: rest) = some (.asks, after) ↔
    ∃ next, console.turn input = some (.asks, next) ∧ next.run rest = some (.asks, after) := by
  cases turned : console.turn input with
  | none => simp [run, turned]
  | some result =>
      rcases result with ⟨ended, next⟩
      cases ended <;> simp [run, turned]

theorem overruns_cons_of_not_fits (unfit : ¬Fits (lastLine console.lastCommand) input) :
    console.Overruns (input :: inputs) :=
  ⟨[], input, inputs, console, rfl, rfl, unfit⟩

theorem overruns_cons_iff (fits : Fits (lastLine console.lastCommand) input) :
    console.Overruns (input :: inputs) ↔
      ∃ next, console.turn input = some (.asks, next) ∧ next.Overruns inputs := by
  have last_eq : ∀ next, console.turn input = some (.asks, next) →
      lineAfter (lastLine console.lastCommand) input = lastLine next.lastCommand := by
    intro next turned
    rcases turns_of_fits (fun _ => ⟨0, .other 0⟩) fits turned with ⟨line, turns⟩
    rw [turns.read, turns.kept]
  constructor
  · rintro ⟨front, unfitting, rest, middle, split, reached, unfit⟩
    cases front with
    | nil =>
        rcases List.cons.inj split with ⟨rfl, -⟩
        exact absurd fits unfit
    | cons head front =>
        rcases List.cons.inj split with ⟨rfl, rfl⟩
        rcases run_cons_asks_iff.mp reached with ⟨next, turned, later⟩
        rw [List.foldl_cons, last_eq next turned] at unfit
        exact ⟨next, turned, front, unfitting, rest, middle, rfl, later, unfit⟩
  · rintro ⟨next, turned, front, unfitting, rest, middle, rfl, later, unfit⟩
    refine ⟨input :: front, unfitting, rest, middle, rfl, ?_, ?_⟩
    · apply run_cons_asks_iff.mpr
      exact ⟨next, turned, later⟩
    · rwa [List.foldl_cons, last_eq next turned]

/--
What the loop does is undefined exactly if it gets to the end of the input, to a line of more
than 1023 characters, or to an empty line whose buffer is too small for the command before it.
-/
theorem run_undefined_iff (ran : console.run inputs = some (ending, after)) :
    ending = .undefined ↔ console.Overruns inputs := by
  induction inputs generalizing console with
  | nil =>
      rw [run] at ran
      rcases Prod.mk.inj (Option.some.inj ran) with ⟨rfl, rfl⟩
      simp [Overruns]
  | cons first inputs ih =>
      by_cases fits : Fits (lastLine console.lastCommand) first
      · rw [overruns_cons_iff fits]
        cases turned : console.turn first with
        | none =>
            rw [run, turned] at ran
            cases ran
        | some result =>
            rcases result with ⟨ended, next⟩
            rcases turns_of_fits (fun _ => ⟨0, .other 0⟩) fits turned with ⟨line, turns⟩
            by_cases asks : ended = .asks
            · rw [asks] at turned ⊢
              rw [run, turned] at ran
              simpa using ih ran
            · rw [run_cons_of_ne_asks turned asks] at ran
              rcases Prod.mk.inj (Option.some.inj ran) with ⟨rfl, rfl⟩
              simp [asks, turns.defined]
      · rw [run_cons_of_ne_asks (turn_of_not_fits fits) (by decide)] at ran
        rcases Prod.mk.inj (Option.some.inj ran) with ⟨rfl, rfl⟩
        exact iff_of_true rfl (overruns_cons_of_not_fits fits)

/-- Behind a command readline's buffer for an empty line, of one byte, is too small for it. -/
theorem run_undefined_iff_empty :
    ∃ after, untilExit.run [typed "info" (by decide) 0, typed "" (by decide) 0] =
        some (.undefined, after) ∧
      untilExit.Overruns [typed "info" (by decide) 0, typed "" (by decide) 0] := by
  obtain ⟨⟨ending, after⟩, ran⟩ : ∃ result, untilExit.run [typed "info" (by decide) 0,
      typed "" (by decide) 0] = some result :=
    Option.isSome_iff_exists.mp (by decide)
  have ending_eq : (untilExit.run [typed "info" (by decide) 0, typed "" (by decide) 0]).map (·.1) =
      some .undefined := by
    decide
  rw [ran] at ending_eq
  rcases Option.some.inj ending_eq with rfl
  exact ⟨after, ran, (run_undefined_iff ran).mp rfl⟩

end Console

end RustDbg
