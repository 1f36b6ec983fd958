import RustDbg.Console.Completion
import RustDbg.Shared.Split

/-!
# The commands of the console

The table that the constructor of `MDBConsole` fills, the two searches through it, and what
readline is offered when the user asks for a line to be completed. A line is run by the first
command with its name or short name, but it is completed by the command whose full name is
its first word.
-/

namespace RustDbg

open Refinement Tokens

/-- The members of `MDBConsole` that are the callbacks of commands. -/
inductive ConsoleCallback where
  | commandQuit
  | commandInfo
  | commandPrintBackTrace
  | commandResume
  | commandStep
  | commandProfile
deriving DecidableEq, Repr

inductive CompletionFunction where
  | readlineCommandGenerator
  | readlineSymbolGenerator
deriving DecidableEq, Repr

/-- `MDBCommand`, with the fields that its completion does not look at. -/
structure ConsoleCommand extends MDBCommand where
  shortName : List Byte
  callback : ConsoleCallback
  completionFunction : CompletionFunction
deriving DecidableEq, Repr

namespace ConsoleCommand

def create (name shortName : String) (callback : ConsoleCallback)
    (completionFunction : CompletionFunction) : ConsoleCommand where
  name := ascii name
  shortName := ascii shortName
  callback
  completionFunction

/-- `MDBCommand::matches` -/
def Matches (command : ConsoleCommand) (line : List Byte) : Prop :=
  line = command.shortName ∨ line = command.name

instance (command : ConsoleCommand) (line : List Byte) : Decidable (command.Matches line) :=
  inferInstanceAs (Decidable (_ ∨ _))

end ConsoleCommand

/-- `MDBConsole::commands` -/
def consoleCommands : List ConsoleCommand :=
  [.create "quit" "q" .commandQuit .readlineCommandGenerator,
    .create "info" "i" .commandInfo .readlineCommandGenerator,
    .create "info-symbols" "is" .commandInfo .readlineCommandGenerator,
    .create "print-back-trace" "is" .commandPrintBackTrace .readlineCommandGenerator,
    .create "resume" "r" .commandResume .readlineCommandGenerator,
    .create "step" "si" .commandStep .readlineCommandGenerator,
    .create "break" "b" .commandStep .readlineSymbolGenerator,
    .create "profile" "p" .commandProfile .readlineCommandGenerator]

/-- The command whose callback `MDBConsole::runCommand` executes. -/
def matchingCommand (line : List Byte) : Option ConsoleCommand :=
  consoleCommands.find? (·.Matches line)

def findCommand (name : List Byte) : Option ConsoleCommand :=
  consoleCommands.find? (·.name = name)

/-! ## Completion -/

/-- The static lists of the two generators. -/
structure CompletionLists where
  commands : MBList MDBCommand
  symbols : MBList (MDBMachFile × MDBSymbol)

def CompletionLists.create : CompletionLists := ⟨.create, .create⟩

/-- A generator with its static list. -/
abbrev EntryFunction (Pending : Type) :=
  Pending → CompletionCall → Option (Option (List Byte) × Pending)

/--
The type of `rl_completion_matches`, a function of readline: the strings that are offered, none
for `NULL`, and what the entry function has left then.
-/
abbrev CompletionMatches :=
  (Pending : Type) → EntryFunction Pending → List Byte → Pending →
    Option (List (List Byte) × Pending)

/--
What is documented of `rl_completion_matches`: it calls the entry function with the state 0 and
then with others until that returns `NULL`, and offers the strings that it has got.
-/
structure CallsUntilNull (rl_completion_matches : CompletionMatches) : Prop where
  calls : ∀ {Pending : Type} {entryFunction : EntryFunction Pending} {text : List Byte}
    {pending after : Pending} {strings : List (List Byte)},
    rl_completion_matches Pending entryFunction text pending = some (strings, after) →
      ∃ session : CompletionSession, session.text = text ∧
        execute entryFunction pending session.calls = some (strings.map some ++ [none], after)
  returns : ∀ {Pending : Type} {entryFunction : EntryFunction Pending} {text : List Byte}
    {pending : Pending} (count : Nat),
    (∀ session : CompletionSession, session.text = text → session.states.length = count →
      ∃ outcomes after, execute entryFunction pending session.calls = some (outcomes, after) ∧
        none ∈ outcomes) →
      (rl_completion_matches Pending entryFunction text pending).isSome

section Counting

variable {Pending : Type} {entryFunction : EntryFunction Pending} {text : List Byte}

/-- A loop that passes the number of the strings that it has got. -/
def EntryFunction.callUntilNull (entryFunction : EntryFunction Pending) (text : List Byte)
    (state : Int) (pending : Pending) : Option (List (List Byte) × Pending) := do
  let called ← entryFunction pending (text, state)
  if called.1.isNone then
    return ([], called.2)
  let later ← entryFunction |>.callUntilNull text (state + 1) called.2
  return (called.1.toList ++ later.1, later.2)
partial_fixpoint

theorem exists_execute_of_callUntilNull {state : Int} {pending after : Pending}
    {strings : List (List Byte)} (counted : 0 ≤ state)
    (returned : entryFunction.callUntilNull text state pending = some (strings, after)) :
    ∃ states : List Int, (∀ state ∈ states, 0 < state) ∧
      execute entryFunction pending ((text, state) :: states.map (text, ·)) =
        some (strings.map some ++ [none], after) := by
  revert counted
  refine EntryFunction.callUntilNull.partial_correctness entryFunction text
    (fun state pending result => 0 ≤ state → ∃ states : List Int, (∀ state ∈ states, 0 < state) ∧
      execute entryFunction pending ((text, state) :: states.map (text, ·)) =
        some (result.1.map some ++ [none], result.2)) ?_ state pending (strings, after) returned
  rintro call ih state pending ⟨strings, after⟩ returned counted
  simp only [Option.bind_eq_bind, Option.bind_eq_some_iff, Prod.exists] at returned
  rcases returned with ⟨string, next, called, returned⟩
  cases string with
  | none =>
      simp only [Option.isNone_none, if_true, Option.pure_def, Option.some.injEq,
        Prod.mk.injEq] at returned
      rcases returned with ⟨rfl, rfl⟩
      exact ⟨[], by simp, execute_cons_eq_some_iff.mpr ⟨none, next, [], called, rfl, rfl⟩⟩
  | some string =>
      simp only [Option.isNone_some, Bool.false_eq_true, if_false, Option.bind_eq_some_iff,
        Prod.exists, Option.pure_def, Option.some.injEq, Prod.mk.injEq] at returned
      rcases returned with ⟨strings, last, later, rfl, rfl⟩
      rcases ih (state + 1) next (strings, last) later (by omega) with ⟨states, positive, ran⟩
      refine ⟨(state + 1) :: states, ?_, ?_⟩
      · rintro state' (_ | ⟨_, present⟩)
        · omega
        · exact positive state' present
      · exact execute_cons_eq_some_iff.mpr ⟨some string, next, _, called, ran, rfl⟩

theorem isSome_callUntilNull {state : Int} {pending : Pending} (counted : 0 ≤ state) (count : Nat)
    (ends : ∀ states : List Int, (∀ state ∈ states, 0 < state) → states.length = count →
      ∃ outcomes after, execute entryFunction pending ((text, state) :: states.map (text, ·)) =
        some (outcomes, after) ∧ none ∈ outcomes) :
    (entryFunction.callUntilNull text state pending).isSome := by
  induction count generalizing state pending with
  | zero =>
      rcases ends [] (by simp) rfl with ⟨outcomes, last, ran, returned⟩
      rcases execute_cons_eq_some_iff.mp ran with ⟨string, next, others, called, ended, rfl⟩
      obtain rfl : others = [] := by
        simp only [execute, List.map_nil, Option.some.injEq, Prod.mk.injEq] at ended
        exact ended.1.symm
      obtain rfl : string = none := (List.mem_singleton.mp returned).symm
      rw [EntryFunction.callUntilNull]
      simp [called]
  | succ count ih =>
      have positive : ∀ state ∈ List.replicate (count + 1) (1 : Int), 0 < state := by
        intro state present
        rw [List.eq_of_mem_replicate present]
        decide
      rcases ends _ positive List.length_replicate with ⟨_, _, ran, _⟩
      rcases execute_cons_eq_some_iff.mp ran with ⟨string, next, _, called, _, _⟩
      rw [EntryFunction.callUntilNull]
      cases string with
      | none => simp [called]
      | some string =>
          have later : (entryFunction.callUntilNull text (state + 1) next).isSome := by
            apply ih (by omega)
            intro states positive length_eq
            have positive' : ∀ state' ∈ (state + 1) :: states, 0 < state' := by
              rintro state' (_ | ⟨_, present⟩)
              · omega
              · exact positive state' present
            rcases ends _ positive' (by simp [length_eq]) with ⟨outcomes, last, ran, returned⟩
            rcases execute_cons_eq_some_iff.mp ran with ⟨_, _, others, called', ran, rfl⟩
            rw [called, Option.some.injEq, Prod.mk.injEq] at called'
            rcases called' with ⟨rfl, rfl⟩
            exact ⟨others, last, ran, by simpa using returned⟩
          rcases Option.isSome_iff_exists.mp later with ⟨⟨strings, last⟩, later⟩
          simp [called, later]

/-- What is documented is met by a function that passes the number of strings. -/
def countingMatches : CompletionMatches :=
  fun _ entryFunction text pending => entryFunction.callUntilNull text 0 pending

theorem callsUntilNull_countingMatches : CallsUntilNull countingMatches := by
  constructor
  · intro Pending entryFunction text pending after strings returned
    rcases exists_execute_of_callUntilNull (Int.le_refl 0) returned with ⟨states, positive, ran⟩
    exact ⟨⟨text, states, positive⟩, rfl, ran⟩
  · intro Pending entryFunction text pending count ends
    apply isSome_callUntilNull (Int.le_refl 0) count
    intro states positive length_eq
    exact ends ⟨text, states, positive⟩ rfl length_eq

end Counting

/-- What readline passes when a line is to be completed. -/
structure CompletionRequest where
  text : List Byte
  start : Int
  rl_line_buffer : List Byte

/-- `tokens->isEmpty() ? NULL : findCommand(tokens->get(0))` -/
def firstCommand (tokens : MBList (List Byte)) : Option (Option ConsoleCommand) :=
  if tokens.isEmpty then some none else (tokens.get 0).map findCommand

section Readline

variable (rl_completion_matches : CompletionMatches) (files : List MDBMachFile)
  (lists : CompletionLists)

/-- `rl_completion_matches` with one of the two generators. -/
def completionMatches (text : List Byte) :
    CompletionFunction → Option (List (List Byte) × CompletionLists)
  | .readlineCommandGenerator => do
      let commands := consoleCommands.map (·.toMDBCommand)
      let (strings, commands) ←
        rl_completion_matches _ (readlineCommandGenerator commands) text lists.commands
      return (strings, { lists with commands })
  | .readlineSymbolGenerator => do
      let (strings, symbols) ←
        rl_completion_matches _ (readlineSymbolGenerator files) text lists.symbols
      return (strings, { lists with symbols })

/-- `MDBConsole::readlineCommandCompletion`: the strings offered, none for `NULL`. -/
def readlineCommandCompletion (request : CompletionRequest) :
    Option (List (List Byte) × CompletionLists) :=
  if request.start ≥ 0 then do
    let tokens ← split request.rl_line_buffer (ascii " ")
    let command ← firstCommand tokens
    completionMatches rl_completion_matches files lists request.text
      ((command.map (·.completionFunction)).getD .readlineCommandGenerator)
  else some ([], lists)

end Readline

/-! ## What is offered -/

/-- readline gets the names that start with the text, from the last one on. -/
theorem CallsUntilNull.eq_some {Entry : Type} {nameOf : Entry → Option (List Byte)}
    {table : List Entry} {names remaining : List (List Byte)} {list : MBList Entry}
    {rl_completion_matches : CompletionMatches} (readline : CallsUntilNull rl_completion_matches)
    (named : Named nameOf table names) (held : HoldsNamed nameOf list remaining)
    (text : List Byte) :
    ∃ after left, rl_completion_matches _ (generate nameOf table) text list =
      some ((completions names text).reverse, after) ∧ HoldsNamed nameOf after left := by
  have offered : ∀ session : CompletionSession, ∃ after left,
      execute (generate nameOf table) list session.calls =
        some ((List.range session.calls.length).map
          ((completions names session.text).reverse[·]?), after) ∧
        HoldsNamed nameOf after left := by
    intro session
    rcases execute_offer_session names remaining session with ⟨left, ran⟩
    rcases (refines_offer named).execute held ran with ⟨after, ran, held⟩
    exact ⟨after, left, ran, held⟩
  have ends : ∀ session : CompletionSession, session.text = text →
      session.states.length = (completions names text).length → ∃ outcomes after,
        execute (generate nameOf table) list session.calls = some (outcomes, after) ∧
          none ∈ outcomes := by
    rintro session rfl length_eq
    rcases offered session with ⟨after, left, ran, -⟩
    refine ⟨_, after, ran, (completes_range _ _ _).ends ?_⟩
    simp [CompletionSession.calls, length_eq]
  rcases Option.isSome_iff_exists.mp (readline.returns _ ends) with ⟨⟨strings, after⟩, returned⟩
  rcases readline.calls returned with ⟨session, rfl, ran⟩
  rcases offered session with ⟨after', left, ran', held⟩
  rw [ran, Option.some.injEq, Prod.mk.injEq] at ran'
  rcases ran' with ⟨outcomes_eq, rfl⟩
  rw [eq_of_range_eq outcomes_eq.symm]
  exact ⟨after, left, returned, held⟩

namespace CompletionLists

/-- Both lists hold entries that have names. -/
structure Usable (lists : CompletionLists) : Prop where
  commands : ∃ names, HoldsNamed (fun command => some command.name) lists.commands names
  symbols : ∃ names, HoldsNamed symbolName lists.symbols names

theorem usable_create : create.Usable :=
  ⟨⟨[], [], MBList.represents_create, rfl⟩, ⟨[], [], MBList.represents_create, rfl⟩⟩

end CompletionLists

/-- The names that are offered for a line with these words. -/
def offeredNames (loaded : LoadedFiles) (words : List (List Byte)) : List (List Byte) :=
  if words.head? = some (ascii "break") then loaded.names else consoleCommands.map (·.name)

/-- The strings that complete the text of a request whose line has these words. -/
def CompletionRequest.offered (request : CompletionRequest) (loaded : LoadedFiles)
    (words : List (List Byte)) : List (List Byte) :=
  if request.start ≥ 0 then (completions (offeredNames loaded words) request.text).reverse else []

/-- Of all commands only `break` is completed with symbols. -/
theorem completionFunction_findCommand (name : List Byte) :
    ((findCommand name).map (·.completionFunction)).getD .readlineCommandGenerator =
      if name = ascii "break" then .readlineSymbolGenerator else .readlineCommandGenerator := by
  have only : ∀ command ∈ consoleCommands, command.completionFunction =
      if command.name = ascii "break" then .readlineSymbolGenerator
      else .readlineCommandGenerator := by
    decide
  cases found : findCommand name with
  | none =>
      have other : name ≠ ascii "break" := by
        rintro rfl
        apply absurd found
        decide
      rw [if_neg other]
      rfl
  | some command =>
      have name_eq : command.name = name := by simpa using List.find?_some found
      rw [← name_eq]
      exact only command (List.mem_of_find?_eq_some found)

/-- The command that a line is completed for is looked up under the first word. -/
theorem firstCommand_of_separated {line : List Byte} {words : List (List Byte)}
    (separated : Separated (ascii " ").contains words line) :
    ∃ tokens, split line (ascii " ") = some tokens ∧
      firstCommand tokens = some (words.head?.bind findCommand) := by
  rcases splitLoop_eq_some MBList.represents_create separated with ⟨tokens, ran, represents⟩
  refine ⟨tokens, ran, ?_⟩
  rw [List.nil_append] at represents
  rw [firstCommand, represents.isEmpty_eq]
  cases words with
  | nil => rfl
  | cons word words =>
      have first : tokens.get 0 = some word := by
        apply represents.slot_eq
        exact Nat.succ_pos _
      simp [first]

variable {rl_completion_matches : CompletionMatches} {loaded : LoadedFiles}
  {lists : CompletionLists} {request : CompletionRequest} {words : List (List Byte)}

theorem completionMatches_commands (readline : CallsUntilNull rl_completion_matches)
    (usable : lists.Usable) (text : List Byte) :
    ∃ after, completionMatches rl_completion_matches loaded.files lists text
        .readlineCommandGenerator =
      some ((completions (consoleCommands.map (·.name)) text).reverse, after) ∧ after.Usable := by
  rcases usable.commands with ⟨names, held⟩
  have named : Named (fun command : MDBCommand => some command.name)
      (consoleCommands.map (·.toMDBCommand)) (consoleCommands.map (·.name)) := by
    simp [Named]
  rcases readline.eq_some named held text with ⟨after, left, ran, held⟩
  refine ⟨{ lists with commands := after }, ?_, ⟨left, held⟩, usable.symbols⟩
  simp only [completionMatches, readlineCommandGenerator, ran, Option.bind_eq_bind,
    Option.bind_some, Option.pure_def]

theorem completionMatches_symbols (readline : CallsUntilNull rl_completion_matches)
    (usable : lists.Usable) (text : List Byte) :
    ∃ after, completionMatches rl_completion_matches loaded.files lists text
        .readlineSymbolGenerator =
      some ((completions loaded.names text).reverse, after) ∧ after.Usable := by
  rcases usable.symbols with ⟨names, held⟩
  have named := named_filterMap loaded.named
  rcases readline.eq_some named held text with ⟨after, left, ran, held⟩
  refine ⟨{ lists with symbols := after }, ?_, usable.commands, ⟨left, held⟩⟩
  simp only [completionMatches, readlineSymbolGenerator, ran, Option.bind_eq_bind,
    Option.bind_some, Option.pure_def]
  rfl

theorem readlineCommandCompletion_eq_some (readline : CallsUntilNull rl_completion_matches)
    (usable : lists.Usable)
    (separated : Separated (ascii " ").contains words request.rl_line_buffer) :
    ∃ after, readlineCommandCompletion rl_completion_matches loaded.files lists request =
      some (request.offered loaded words, after) ∧ after.Usable := by
  rcases firstCommand_of_separated separated with ⟨tokens, ran, command_eq⟩
  rw [readlineCommandCompletion, CompletionRequest.offered]
  split
  · have function_eq : ((words.head?.bind findCommand).map (·.completionFunction)).getD
        .readlineCommandGenerator = if words.head? = some (ascii "break")
          then .readlineSymbolGenerator else .readlineCommandGenerator := by
      cases words with
      | nil => rfl
      | cons word words => simpa using completionFunction_findCommand word
    simp only [ran, command_eq, Option.bind_eq_bind, Option.bind_some, function_eq, offeredNames]
    split
    · exact completionMatches_symbols readline usable request.text
    · exact completionMatches_commands readline usable request.text
  · exact ⟨lists, rfl, usable⟩

theorem execute_readlineCommandCompletion (readline : CallsUntilNull rl_completion_matches)
    (usable : lists.Usable) (requests : List CompletionRequest) :
    ∃ offered after,
      execute (readlineCommandCompletion rl_completion_matches loaded.files) lists requests =
        some (offered, after) ∧ after.Usable := by
  induction requests generalizing lists with
  | nil => exact ⟨[], lists, rfl, usable⟩
  | cons request requests ih =>
      rcases exists_separated (ascii " ").contains request.rl_line_buffer with ⟨words, separated⟩
      rcases readlineCommandCompletion_eq_some readline usable separated with ⟨next, ran, kept⟩
      rcases ih kept with ⟨offered, after, later, last⟩
      exact ⟨_, after, execute_cons_eq_some_iff.mpr ⟨_, next, offered, ran, later, rfl⟩, last⟩

/--
Whatever has been completed before, a line is completed with all symbols that its text starts if
its first word is `break`, and with all such commands otherwise, also behind the short name of
a command; the last one in the table comes first.
-/
theorem readlineCommandCompletion_completes (readline : CallsUntilNull rl_completion_matches)
    (loaded : LoadedFiles) (history : List CompletionRequest) (request : CompletionRequest) :
    ∃ words earlier lists after, Separated (ascii " ").contains words request.rl_line_buffer ∧
      execute (readlineCommandCompletion rl_completion_matches loaded.files) .create history =
        some (earlier, lists) ∧
      readlineCommandCompletion rl_completion_matches loaded.files lists request =
        some (request.offered loaded words, after) := by
  rcases execute_readlineCommandCompletion readline CompletionLists.usable_create history with
    ⟨earlier, lists, ran, usable⟩
  rcases exists_separated (ascii " ").contains request.rl_line_buffer with ⟨words, separated⟩
  rcases readlineCommandCompletion_eq_some readline usable separated with ⟨after, completed, -⟩
  exact ⟨words, earlier, lists, after, separated, ran, completed⟩

/-- A line with `break` is completed with the symbols, when a command has been completed before. -/
theorem readlineCommandCompletion_completes_symbolFiles :
    ∃ words earlier lists after, Separated (ascii " ").contains words (ascii "break m") ∧
      execute (readlineCommandCompletion countingMatches symbolFiles.files) .create
        [⟨ascii "s", 0, ascii "s"⟩] = some (earlier, lists) ∧
      readlineCommandCompletion countingMatches symbolFiles.files lists
          ⟨ascii "m", 6, ascii "break m"⟩ =
        some (CompletionRequest.offered ⟨ascii "m", 6, ascii "break m"⟩ symbolFiles words, after) :=
  readlineCommandCompletion_completes callsUntilNull_countingMatches symbolFiles
    [⟨ascii "s", 0, ascii "s"⟩] ⟨ascii "m", 6, ascii "break m"⟩

end RustDbg
