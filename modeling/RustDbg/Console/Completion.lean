import RustDbg.Code.Symbols
import RustDbg.Image.Faithful
import RustDbg.Shared.MBList
import RustDbg.Shared.Strings

/-!
# The completion generators

`readlineCommandGenerator` and `readlineSymbolGenerator` of the console, which readline
calls with the state 0 first and with others until they return `NULL`, or until it does
not want more. Each keeps the entries still to be offered in a static list.
-/

namespace RustDbg

open Refinement

/-! ## The generators -/

/-- A call of a generator: the text and the state. -/
abbrev CompletionCall := List Byte × Int

section Generator

variable {Entry : Type} (nameOf : Entry → Option (List Byte))

/-- The loop that adds the entries whose name starts with the text. -/
def collect (text : List Byte) : MBList Entry → List Entry → Option (MBList Entry)
  | list, [] => some list
  | list, entry :: rest => do
      let name ← nameOf entry
      if startsWith name text then
        let (_, list) ← list.add entry
        collect text list rest
      else collect text list rest

/-- The list at a call, which is filled anew at the state 0. -/
def fill (table : List Entry) (list : MBList Entry) (text : List Byte) (state : Int) :
    Option (MBList Entry) :=
  if state = 0 then collect nameOf text list.clear table else some list

/-- What both generators do with their table; there is no result if a name cannot be read. -/
def generate (table : List Entry) (list : MBList Entry) :
    CompletionCall → Option (Option (List Byte) × MBList Entry)
  | (text, state) => do
      let list ← fill nameOf table list text state
      if list.isEmpty then return (none, list)
      else
        let (entry, list) ← list.pop
        let name ← nameOf entry
        return (some name, list)

end Generator

structure MDBCommand where
  name : List Byte
deriving DecidableEq, Repr

def readlineCommandGenerator (commands : List MDBCommand) :
    MBList MDBCommand → CompletionCall → Option (Option (List Byte) × MBList MDBCommand) :=
  generate (fun command => some command.name) commands

/-- `symbol->name`, in the buffer of the file of the symbol. -/
def symbolName (object : MDBMachFile × MDBSymbol) : Option (List Byte) :=
  object.2.name.characters object.1.buffer

def readlineSymbolGenerator (files : List MDBMachFile) :
    MBList (MDBMachFile × MDBSymbol) → CompletionCall →
      Option (Option (List Byte) × MBList (MDBMachFile × MDBSymbol)) :=
  generate symbolName (symbolObjects files)

/-- Files whose symbols all have a name that ends inside the file. -/
structure LoadedFiles where
  files : List MDBMachFile
  named : ∀ object ∈ symbolObjects files, (symbolName object).isSome

namespace LoadedFiles

def names (loaded : LoadedFiles) : List (List Byte) :=
  (symbolObjects loaded.files).filterMap symbolName

end LoadedFiles

/-- A file with the symbols `main`, `malloc` and `exit`. -/
def symbolFiles : LoadedFiles where
  files := [{
    fileName := []
    buffer := ascii "main" ++ [0x00#8] ++ ascii "malloc" ++ [0x00#8] ++ ascii "exit" ++ [0x00#8]
    symbols := [⟨.inBuffer 0, 0x1000#64⟩, ⟨.inBuffer 5, 0x2000#64⟩, ⟨.inBuffer 12, 0x3000#64⟩]
    dylibs := [] }]
  named := by decide

/-! ## The names still to be offered -/

/-- The names that complete a text. -/
def completions (names : List (List Byte)) (text : List Byte) : List (List Byte) :=
  names.filter fun name => text <+: name

/-- What a call does to the names still to be offered. -/
def offer (names remaining : List (List Byte)) :
    CompletionCall → Option (Option (List Byte) × List (List Byte))
  | (text, state) =>
      let remaining := if state = 0 then completions names text else remaining
      some (remaining.getLast?, remaining.dropLast)

/-- The entries have these names. -/
def Named {Entry : Type} (nameOf : Entry → Option (List Byte)) (entries : List Entry)
    (names : List (List Byte)) : Prop := entries.map nameOf = names.map some

/-- The list holds entries with these names. -/
def HoldsNamed {Entry : Type} (nameOf : Entry → Option (List Byte)) (list : MBList Entry)
    (names : List (List Byte)) : Prop :=
  ∃ entries, list.Represents entries ∧ Named nameOf entries names

variable {Entry : Type} {nameOf : Entry → Option (List Byte)} {table entries : List Entry}
  {names remaining : List (List Byte)} {list : MBList Entry} {text : List Byte}

/-- The entries of the table that the loop adds. -/
def matching (nameOf : Entry → Option (List Byte)) (text : List Byte) (table : List Entry) :
    List Entry :=
  table.filter fun entry => (nameOf entry).any fun name => text <+: name

theorem Named.matching (named : Named nameOf table names) (text : List Byte) :
    Named nameOf (matching nameOf text table) (completions names text) := by
  have filtered := congrArg (List.filter fun name =>
    name.any fun name => decide (text <+: name)) named
  simp only [List.filter_map] at filtered
  exact filtered

theorem collect_eq_some (text : List Byte) (represents : list.Represents entries)
    (named : ∀ entry ∈ table, (nameOf entry).isSome) :
    ∃ after, collect nameOf text list table = some after ∧
      after.Represents (entries ++ matching nameOf text table) := by
  induction table generalizing list entries with
  | nil => exact ⟨list, rfl, by simpa [matching] using represents⟩
  | cons entry table ih =>
      rcases Option.isSome_iff_exists.mp (named entry List.mem_cons_self) with ⟨name, name_eq⟩
      have others : ∀ entry ∈ table, (nameOf entry).isSome := by
        intro entry present
        apply named entry
        exact List.mem_cons_of_mem _ present
      have whole : matching nameOf text (entry :: table) =
          if startsWith name text then entry :: matching nameOf text table
          else matching nameOf text table := by
        simp only [matching, List.filter_cons, name_eq, Option.any_some, decide_eq_true_eq,
          startsWith_iff]
      simp only [collect, name_eq, Option.bind_eq_bind, Option.bind_some, whole]
      split
      · rcases represents.add entry with ⟨added, added_eq, addedRepresents, _⟩
        rcases ih addedRepresents others with ⟨after, collected, afterRepresents⟩
        refine ⟨after, ?_, ?_⟩
        · rw [added_eq]
          exact collected
        · simpa using afterRepresents
      · exact ih represents others

/-- Popping an entry offers the last name that is left. -/
theorem Named.concat {entry : Entry} {name : List Byte}
    (named : Named nameOf (entries ++ [entry]) (remaining ++ [name])) :
    Named nameOf entries remaining ∧ nameOf entry = some name := by
  simp only [Named, List.map_append, List.map_cons, List.map_nil] at named
  rcases List.append_inj' named rfl with ⟨front, last⟩
  exact ⟨front, List.singleton_inj.mp last⟩

/-- A call does with the names of the entries what `offer` does. -/
theorem refines_offer (named : Named nameOf table names) :
    Refines (generate nameOf table) (offer names) (HoldsNamed nameOf) := by
  rintro list remaining ⟨text, state⟩ outcome remaining' ⟨entries, represents, held⟩ offered
  simp only [offer, Option.some.injEq, Prod.mk.injEq] at offered
  rcases offered with ⟨rfl, rfl⟩
  have readable : ∀ entry ∈ table, (nameOf entry).isSome := by
    intro entry present
    have mem : nameOf entry ∈ table.map nameOf := List.mem_map_of_mem present
    rw [named] at mem
    rcases List.mem_map.mp mem with ⟨name, _, name_eq⟩
    rw [← name_eq]
    rfl
  have filled : ∃ after, fill nameOf table list text state = some after ∧
      HoldsNamed nameOf after (if state = 0 then completions names text else remaining) := by
    rw [fill]
    split
    · rcases collect_eq_some text list.represents_clear readable with
        ⟨after, collected, afterRepresents⟩
      exact ⟨after, collected, _, afterRepresents, named.matching text⟩
    · exact ⟨list, rfl, entries, represents, held⟩
  rcases filled with ⟨after, filled, entries', afterRepresents, left⟩
  simp only [generate, filled, Option.bind_eq_bind, Option.bind_some, afterRepresents.isEmpty_eq]
  generalize (if state = 0 then completions names text else remaining) = names' at left
  rcases List.eq_nil_or_concat' entries' with rfl | ⟨front, entry, rfl⟩
  · have nothing : names' = [] := by simpa [Named] using left.symm
    rw [nothing]
    exact ⟨after, rfl, [], afterRepresents, rfl⟩
  · rcases List.eq_nil_or_concat' names' with rfl | ⟨front', name, rfl⟩
    · simp [Named] at left
    · rcases left.concat with ⟨leftFront, name_eq⟩
      rcases afterRepresents.pop with ⟨popped, pop_eq, poppedRepresents, _⟩
      refine ⟨popped, ?_, front, poppedRepresents, ?_⟩
      · simp [pop_eq, name_eq]
      · rwa [List.dropLast_concat]

/-! ## Sessions -/

/-- A call with the state 0 and some with others. -/
structure CompletionSession where
  text : List Byte
  states : List Int
  positive : ∀ state ∈ states, 0 < state

namespace CompletionSession

def calls (session : CompletionSession) : List CompletionCall :=
  (session.text, 0) :: session.states.map (session.text, ·)

end CompletionSession

/-- What the calls of a session for a text return, if these are all the names. -/
structure Completes (names : List (List Byte)) (text : List Byte)
    (outcomes : List (Option (List Byte))) : Prop where
  strings : ∀ returned : List (List Byte), outcomes = returned.map some ++ [none] →
    returned.Perm (completions names text)
  ends : (completions names text).length < outcomes.length → none ∈ outcomes

/-- Whatever sessions came before, each one completes its text. -/
def CompletesAll (generator : MBList Entry → CompletionCall →
    Option (Option (List Byte) × MBList Entry)) (names : List (List Byte)) : Prop :=
  ∀ (history : List CompletionSession) (session : CompletionSession), ∃ earlier list outcomes after,
    execute generator .create (history.flatMap CompletionSession.calls) = some (earlier, list) ∧
      execute generator list session.calls = some (outcomes, after) ∧
      Completes names session.text outcomes

theorem exists_execute_offer (names remaining : List (List Byte)) (calls : List CompletionCall) :
    ∃ outcomes left, execute (offer names) remaining calls = some (outcomes, left) := by
  induction calls generalizing remaining with
  | nil => exact ⟨[], remaining, rfl⟩
  | cons call calls ih =>
      rcases ih (if call.2 = 0 then completions names call.1 else remaining).dropLast with
        ⟨outcomes, left, ran⟩
      exact ⟨_, left, execute_cons_eq_some_iff.mpr ⟨_, _, outcomes, rfl, ran, rfl⟩⟩

/-- The later calls return the names still to be offered, from the last one on. -/
theorem execute_offer_later (offered : List (List Byte)) {states : List Int}
    (positive : ∀ state ∈ states, 0 < state) :
    ∃ left, execute (offer names) offered.reverse (states.map (text, ·)) =
      some ((List.range states.length).map (offered[·]?), left) := by
  induction states generalizing offered with
  | nil => exact ⟨_, rfl⟩
  | cons state states ih =>
      have notZero : state ≠ 0 := by
        have isPositive := positive state List.mem_cons_self
        omega
      have later : ∀ state ∈ states, 0 < state := by
        intro state present
        apply positive state
        exact List.mem_cons_of_mem _ present
      rcases ih offered.tail later with ⟨left, ran⟩
      refine ⟨left, execute_cons_eq_some_iff.mpr
        ⟨offered[0]?, offered.tail.reverse, _, ?_, ran, ?_⟩⟩
      · simp [offer, notZero, List.getLast?_reverse, List.head?_eq_getElem?]
      · simp [List.range_succ_eq_map, Function.comp_def]

/-- The k-th call of a session returns the k-th completion, counted from the back. -/
theorem execute_offer_session (names remaining : List (List Byte)) (session : CompletionSession) :
    ∃ left, execute (offer names) remaining session.calls =
      some ((List.range session.calls.length).map
        ((completions names session.text).reverse[·]?), left) := by
  have positive : ∀ state ∈ 1 :: session.states, 0 < state := by
    rintro state (_ | ⟨_, present⟩)
    · decide
    · exact session.positive state present
  -- The call with the state 0 is one with another state and all completions to be offered.
  have restarted : execute (offer names) remaining session.calls =
      execute (offer names) (completions names session.text)
        ((1 :: session.states).map (session.text, ·)) := by
    simp [CompletionSession.calls, execute, offer]
  rcases execute_offer_later (completions names session.text).reverse positive with ⟨left, ran⟩
  rw [List.reverse_reverse] at ran
  refine ⟨left, ?_⟩
  rw [restarted, ran]
  simp [CompletionSession.calls]

/-- Strings that calls return in the order of a list up to the first `NULL` are that list. -/
theorem eq_of_range_eq {offered returned : List (List Byte)} {count : Nat}
    (outcomes_eq : (List.range count).map (offered[·]?) = returned.map some ++ [none]) :
    offered = returned := by
  have count_eq := congrArg List.length outcomes_eq
  simp only [List.length_map, List.length_range, List.length_append, List.length_singleton]
    at count_eq
  have entries : ∀ k < count, some offered[k]? = (returned.map some ++ [none])[k]? := by
    intro k inside
    simp only [← outcomes_eq, List.getElem?_map, List.getElem?_range inside]
    rfl
  have short : offered.length ≤ returned.length := by
    have last := entries returned.length (by omega)
    rw [List.getElem?_append_right (by simp), List.length_map, Nat.sub_self] at last
    apply List.getElem?_eq_none_iff.mp
    exact Option.some.inj last
  apply List.ext_getElem?
  intro k
  rcases Nat.lt_or_ge k returned.length with inside | outside
  · have entry := entries k (by omega)
    rw [List.getElem?_append_left (by simpa using inside), List.getElem?_map,
      List.getElem?_eq_getElem inside] at entry
    rw [List.getElem?_eq_getElem inside]
    exact Option.some.inj entry
  · rw [List.getElem?_eq_none outside, List.getElem?_eq_none (by omega)]

theorem completes_range (names : List (List Byte)) (text : List Byte) (count : Nat) :
    Completes names text
      ((List.range count).map ((completions names text).reverse[·]?)) := by
  constructor
  · intro returned outcomes_eq
    rw [← eq_of_range_eq outcomes_eq]
    exact List.reverse_perm _
  · intro enough
    simp only [List.length_map, List.length_range] at enough
    apply List.mem_map.mpr
    exact ⟨_, List.mem_range.mpr enough, by simp⟩

theorem completesAll_generate (named : Named nameOf table names) :
    CompletesAll (generate nameOf table) names := by
  intro history session
  have start : HoldsNamed nameOf .create [] := ⟨[], MBList.represents_create, rfl⟩
  rcases exists_execute_offer names [] (history.flatMap CompletionSession.calls) with
    ⟨earlier, remaining, ran⟩
  rcases (refines_offer named).execute start ran with ⟨list, before, held⟩
  rcases execute_offer_session names remaining session with ⟨left, ran⟩
  rcases (refines_offer named).execute held ran with ⟨after, completed, _⟩
  exact ⟨earlier, list, _, after, before, completed, completes_range _ _ _⟩

theorem named_filterMap (named : ∀ entry ∈ table, (nameOf entry).isSome) :
    Named nameOf table (table.filterMap nameOf) := by
  rw [Named]
  induction table with
  | nil => rfl
  | cons entry table ih =>
      rcases Option.isSome_iff_exists.mp (named entry List.mem_cons_self) with ⟨name, name_eq⟩
      have others := ih fun entry present => named entry (List.mem_cons_of_mem _ present)
      simp only [List.map_cons, others, List.filterMap_cons_some name_eq, name_eq]

/--
For every table of commands and all loaded files, and after any sessions, a session that is run to
its end returns the names that start with its text, each as often as it is in the table.
-/
theorem generators_completeAll (commands : List MDBCommand) (loaded : LoadedFiles) :
    CompletesAll (readlineCommandGenerator commands) (commands.map (·.name)) ∧
      CompletesAll (readlineSymbolGenerator loaded.files) loaded.names := by
  constructor
  · apply completesAll_generate
    simp [Named]
  · apply completesAll_generate
    exact named_filterMap loaded.named

/-- Behind an abandoned session for `m`, one for `ma` gets the names of two of three symbols. -/
theorem generators_completeAll_symbolFiles :
    completions symbolFiles.names (ascii "ma") = [ascii "main", ascii "malloc"] ∧
      ∃ earlier list outcomes after,
        execute (readlineSymbolGenerator symbolFiles.files) .create
          ([⟨ascii "m", [], by decide⟩].flatMap CompletionSession.calls) = some (earlier, list) ∧
        execute (readlineSymbolGenerator symbolFiles.files) list
          (CompletionSession.calls ⟨ascii "ma", [1, 2], by decide⟩) = some (outcomes, after) ∧
        Completes symbolFiles.names (ascii "ma") outcomes :=
  ⟨by decide, (generators_completeAll [] symbolFiles).2 [⟨ascii "m", [], by decide⟩]
    ⟨ascii "ma", [1, 2], by decide⟩⟩

end RustDbg
