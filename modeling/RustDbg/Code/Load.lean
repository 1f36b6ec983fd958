import RustDbg.Image.Bounds
import RustDbg.Library.Traversal

/-!
# Loading symbols

`MDBCode::loadSymbols` parses a file and goes on with the libraries that it names. The
list of loaded files is its only mark; a library that does not parse leaves none and
is tried again wherever it is named.
-/

namespace RustDbg

open Buffer

/--
The files there are to parse: for a name, the object that `MDBMachFile::parse` makes of
the file if it returns true, which it does for finitely many names.
-/
structure MachFiles where
  parse : List Byte → Option MDBMachFile
  fileName : ∀ {fileName file}, parse fileName = some file → file.fileName = fileName
  dylibNames : ∀ {fileName file}, parse fileName = some file →
    ∀ dylib ∈ file.dylibs, (stringAt file.buffer dylib.fileName).isSome
  finite : {fileName | (parse fileName).isSome}.Finite

/-- `files.indexOf(MDBMatchMachFileName(fileName)) >= 0` -/
def hasFile (files : List MDBMachFile) (fileName : List Byte) : Bool :=
  files.any (·.fileName = fileName)

namespace MachFiles

/-- The object of a file that `MDBMachFile::parse` accepts. -/
def parseFile (log : MDBLog) (content : Option (List Byte)) (fileName : List Byte) :
    Option MDBMachFile :=
  (MDBMachFile.parse log content (.create fileName)).bind fun answer =>
    if answer.1 then some answer.2 else none

theorem parseFile_eq_some {log : MDBLog} {content : Option (List Byte)} {fileName : List Byte}
    {file : MDBMachFile} (parsed : parseFile log content fileName = some file) :
    ∃ bytes, content = some bytes ∧ file.fileName = fileName ∧ file.buffer = bytes ∧
      MDBMachFile.parse log (some bytes) (.create fileName) = some (true, file) := by
  simp only [parseFile, Option.bind_eq_some_iff, Option.ite_none_right_eq_some,
    Option.some.injEq] at parsed
  rcases parsed with ⟨⟨accepted, _⟩, ran, rfl, rfl⟩
  cases content with
  | none =>
      simp only [MDBMachFile.parse, Option.bind_eq_bind, Option.bind_eq_some_iff] at ran
      rcases ran with ⟨_, -, rejected⟩
      cases rejected
  | some bytes =>
      have kept := MDBMachFile.keepsFile_parse ran
      exact ⟨bytes, rfl, kept.1, kept.2, ran⟩

/-- Finitely many files, all of which the reader stays inside, under the names of files. -/
structure Files (log : MDBLog) where
  contents : List Byte → Option (List Byte)
  finite : {fileName | (contents fileName).isSome}.Finite
  terminated : ∀ {fileName}, (contents fileName).isSome → 0#8 ∉ fileName
  inside : ∀ {fileName content}, contents fileName = some content →
    FileInside log fileName content

def ofReader {log : MDBLog} (files : Files log) : MachFiles where
  parse fileName := parseFile log (files.contents fileName) fileName
  fileName parsed := by
    rcases parseFile_eq_some parsed with ⟨_, _, fileName, _, _⟩
    exact fileName
  dylibNames {fileName file} parsed dylib present := by
    rcases parseFile_eq_some parsed with ⟨content, found, _, rfl, ran⟩
    have terminated := files.terminated (Option.isSome_of_eq_some found)
    rcases (MDBMachFile.yields_parse terminated).mpr (files.inside found) with
      ⟨_, ranInside, keeps⟩
    rcases Option.some.inj (ran.symm.trans ranInside)
    apply isSome_stringAt.mpr
    exact (keeps rfl).2 dylib present
  finite := by
    apply files.finite.subset
    intro fileName parsed
    rcases Option.isSome_iff_exists.mp parsed with ⟨file, parsed⟩
    rcases parseFile_eq_some parsed with ⟨content, found, _⟩
    apply Option.isSome_iff_exists.mpr
    exact ⟨content, found⟩

/-- Under every name that can be logged, what is loaded is what the reader makes of the file. -/
theorem parse_ofReader {log : MDBLog} (files : Files log) {fileName : List Byte}
    (terminated : 0#8 ∉ fileName)
    (logs : MDBMachFile.LogsName log MDBMachFile.symbolsMessage fileName) :
    ∃ accepted file,
      MDBMachFile.parse log (files.contents fileName) (.create fileName) =
        some (accepted, file) ∧
      (ofReader files).parse fileName = if accepted then some file else none := by
  obtain ⟨⟨accepted, file⟩, ran⟩ : ∃ answer,
      MDBMachFile.parse log (files.contents fileName) (.create fileName) = some answer := by
    cases found : files.contents fileName with
    | none =>
        have logged := (MDBMachFile.isSome_logName_fileName terminated).mpr logs
        rcases Option.isSome_iff_exists.mp logged with ⟨_, logged⟩
        refine ⟨(false, .create fileName), ?_⟩
        simp only [MDBMachFile.parse, MDBMachFile.create, logged]
        rfl
    | some content =>
        rcases (MDBMachFile.yields_parse terminated).mpr (files.inside found) with
          ⟨answer, ran, -⟩
        exact ⟨answer, ran⟩
  refine ⟨accepted, file, ran, ?_⟩
  change (MDBMachFile.parse log (files.contents fileName) (.create fileName)).bind _ = _
  rw [ran, Option.bind_some]

/-- The loop over the dylibs of a file, which loads those that are not loaded yet. -/
def loadDylibs (load : List MDBMachFile → List Byte → Option (Bool × List MDBMachFile))
    (buffer : List Byte) : List MDBDylib → List MDBMachFile → Option (List MDBMachFile)
  | [], files => some files
  | dylib :: rest, files => do
      let dylibName ← stringAt buffer dylib.fileName
      if hasFile files dylibName then loadDylibs load buffer rest files
      else
        let (_, files) ← load files dylibName
        loadDylibs load buffer rest files

/--
`MDBCode::loadSymbols` with a bound on the depth of its recursion: what it returns and
the loaded files.
-/
def loadSymbols (machFiles : MachFiles) :
    Nat → List MDBMachFile → List Byte → Option (Bool × List MDBMachFile)
  | 0, _, _ => none
  | depth + 1, files, fileName =>
      match machFiles.parse fileName with
      | none => some (false, files)
      | some file => do
          let files ← loadDylibs (machFiles.loadSymbols depth) file.buffer file.dylibs
            (files ++ [file])
          return (true, files)

/-- The names of the libraries that a file names. -/
def references (file : MDBMachFile) : List (List Byte) :=
  file.dylibs.filterMap fun dylib => stringAt file.buffer dylib.fileName

/-- A file that parses names a library. -/
def Refers (machFiles : MachFiles) (fileName dylibName : List Byte) : Prop :=
  ∃ file, machFiles.parse fileName = some file ∧ dylibName ∈ references file

/-- A file is found from a root through the libraries that files that parse name. -/
def Reachable (machFiles : MachFiles) : List Byte → List Byte → Prop :=
  Relation.ReflTransGen machFiles.Refers

/-! ## Loading as a traversal -/

open Traversal

/-- `MDBCode::loadSymbols` up to its recursive calls, for a name that may be loaded already. -/
def enter (machFiles : MachFiles) (files : List MDBMachFile) (fileName : List Byte) :
    Option (List MDBMachFile × List (List Byte)) :=
  if hasFile files fileName then none
  else (machFiles.parse fileName).map fun file => (files ++ [file], references file)

variable {machFiles : MachFiles} {files after : List MDBMachFile} {fileName root : List Byte}

theorem enter_eq_some_iff {entered : List MDBMachFile} {dylibNames : List (List Byte)} :
    machFiles.enter files fileName = some (entered, dylibNames) ↔
      hasFile files fileName = false ∧ ∃ file, machFiles.parse fileName = some file ∧
        entered = files ++ [file] ∧ dylibNames = references file := by
  cases known : hasFile files fileName with
  | true => simp [enter, known]
  | false => simp [enter, known, eq_comm]

theorem enter_eq_none_iff :
    machFiles.enter files fileName = none ↔
      hasFile files fileName ∨ machFiles.parse fileName = none := by
  cases known : hasFile files fileName with
  | true => simp [enter, known]
  | false => simp [enter, known]

/-- The loop loads what traversals of the names do. -/
theorem loadDylibs_of_through {load : List MDBMachFile → List Byte →
      Option (Bool × List MDBMachFile)} {buffer : List Byte} {depth : Nat}
    (loads : ∀ {files name after}, hasFile files name = false →
      visit machFiles.enter depth files name = some after →
        ∃ accepted, load files name = some (accepted, after)) {dylibs : List MDBDylib}
    (named : ∀ dylib ∈ dylibs, (stringAt buffer dylib.fileName).isSome)
    (path : Through (fun files name after => visit machFiles.enter depth files name = some after)
      files (dylibs.filterMap fun dylib => stringAt buffer dylib.fileName) after) :
    loadDylibs load buffer dylibs files = some after := by
  induction dylibs generalizing files with
  | nil =>
      cases path
      rfl
  | cons dylib rest ih =>
      rcases Option.isSome_iff_exists.mp (named dylib List.mem_cons_self) with ⟨name, found⟩
      have restNamed := fun other present => named other (List.mem_cons_of_mem dylib present)
      simp only [List.filterMap_cons, found] at path
      rcases path with _ | ⟨first, others⟩
      rename_i middle
      cases known : hasFile files name with
      | true =>
          have pruned : machFiles.enter files name = none := enter_eq_none_iff.mpr (Or.inl known)
          have same : middle = files := (returns_of_pruned pruned).mp ⟨depth, first⟩
          subst same
          simp only [loadDylibs, found, known, Option.bind_eq_bind, Option.bind_some, if_true]
          exact ih restNamed others
      | false =>
          rcases loads known first with ⟨accepted, loaded⟩
          simp only [loadDylibs, found, known, loaded, Option.bind_eq_bind, Option.bind_some,
            Bool.false_eq_true, if_false]
          exact ih restNamed others

theorem loadSymbols_of_visit {depth : Nat} (fresh : hasFile files fileName = false)
    (visited : visit machFiles.enter depth files fileName = some after) :
    machFiles.loadSymbols depth files fileName =
      some ((machFiles.parse fileName).isSome, after) := by
  induction depth generalizing files fileName after with
  | zero => cases visited
  | succ depth ih =>
      cases parsed : machFiles.parse fileName with
      | none =>
          have pruned : machFiles.enter files fileName = none :=
            enter_eq_none_iff.mpr (Or.inr parsed)
          have same : after = files := (returns_of_pruned pruned).mp ⟨depth + 1, visited⟩
          simp only [loadSymbols, parsed, same, Option.isSome_none]
      | some file =>
          have enters := enter_eq_some_iff.mpr ⟨fresh, file, parsed, rfl, rfl⟩
          simp only [visit, enters, foldlM_eq_some_iff] at visited
          have loop := loadDylibs_of_through (fun fresh visited => ⟨_, ih fresh visited⟩)
            (machFiles.dylibNames parsed) visited
          simp only [loadSymbols, parsed, loop, Option.bind_eq_bind, Option.bind_some, pure,
            Option.isSome_some]

/-- Loading adds files behind those that are loaded. -/
theorem prefix_of_loadDylibs {load : List MDBMachFile → List Byte →
      Option (Bool × List MDBMachFile)} {buffer : List Byte} {dylibs : List MDBDylib}
    (grows : ∀ {files name accepted after}, load files name = some (accepted, after) →
      files <+: after) (loaded : loadDylibs load buffer dylibs files = some after) :
    files <+: after := by
  induction dylibs generalizing files with
  | nil =>
      obtain rfl : files = after := by simpa only [loadDylibs, Option.some.injEq] using loaded
      exact List.prefix_refl files
  | cons dylib rest ih =>
      simp only [loadDylibs, Option.bind_eq_bind, Option.bind_eq_some_iff] at loaded
      rcases loaded with ⟨dylibName, -, loaded⟩
      split at loaded
      · exact ih loaded
      · simp only [Option.bind_eq_some_iff, Prod.exists] at loaded
        rcases loaded with ⟨accepted, middle, first, others⟩
        exact (grows first).trans (ih others)

theorem prefix_of_loadSymbols {depth : Nat} {accepted : Bool}
    (loaded : machFiles.loadSymbols depth files fileName = some (accepted, after)) :
    files <+: after ∧
      ∀ file, machFiles.parse fileName = some file → files ++ [file] <+: after := by
  induction depth generalizing files fileName accepted after with
  | zero => cases loaded
  | succ depth ih =>
      rw [loadSymbols] at loaded
      cases parsed : machFiles.parse fileName with
      | none =>
          simp only [parsed, Option.some.injEq, Prod.mk.injEq] at loaded
          rw [loaded.2]
          exact ⟨List.prefix_refl after, nofun⟩
      | some file =>
          simp only [parsed, Option.bind_eq_bind, Option.bind_eq_some_iff, Option.pure_def,
            Option.some.injEq, Prod.mk.injEq] at loaded
          rcases loaded with ⟨_, others, -, rfl⟩
          have added : files ++ [file] <+: _ :=
            prefix_of_loadDylibs (fun later => (ih later).1) others
          refine ⟨(List.prefix_append files [file]).trans added, ?_⟩
          rintro _ ⟨⟩
          exact added

/-! ## The loaded files -/

theorem hasFile_iff : hasFile files fileName ↔ ∃ file ∈ files, file.fileName = fileName := by
  simp [hasFile]

/-- All loaded files have been parsed, each once. -/
structure Loaded (machFiles : MachFiles) (files : List MDBMachFile) : Prop where
  parsed : ∀ file ∈ files, machFiles.parse file.fileName = some file
  once : (files.map (·.fileName)).Nodup

theorem loaded_nil : Loaded machFiles [] :=
  ⟨fun _ none => absurd none List.not_mem_nil, List.nodup_nil⟩

theorem Loaded.enter {entered : List MDBMachFile} {dylibNames : List (List Byte)}
    (loaded : Loaded machFiles files)
    (enters : machFiles.enter files fileName = some (entered, dylibNames)) :
    Loaded machFiles entered := by
  rcases enter_eq_some_iff.mp enters with ⟨fresh, file, parsed, rfl, rfl⟩
  have named := machFiles.fileName parsed
  constructor
  · intro other present
    rcases List.mem_append.mp present with earlier | latest
    · exact loaded.parsed other earlier
    · simp only [List.mem_singleton.mp latest, named]
      exact parsed
  · simp only [List.map_append, List.map_singleton, List.nodup_append]
    refine ⟨loaded.once, List.nodup_singleton _, ?_⟩
    intro earlier earlierMem latest latestMem same
    rcases List.mem_map.mp earlierMem with ⟨other, present, rfl⟩
    have known : hasFile files fileName := by
      apply hasFile_iff.mpr
      exact ⟨other, present, by rw [same, List.mem_singleton.mp latestMem, named]⟩
    simp only [fresh, Bool.false_eq_true] at known

theorem Loaded.of_evolves (loaded : Loaded machFiles files)
    (evolves : Evolves machFiles.enter files after) : Loaded machFiles after := by
  induction evolves with
  | refl => exact loaded
  | tail _ step ih =>
      rcases step with ⟨name, names, enters⟩
      exact ih.enter enters

theorem mem_of_evolves {file : MDBMachFile} (present : file ∈ files)
    (evolves : Evolves machFiles.enter files after) : file ∈ after := by
  induction evolves with
  | refl => exact present
  | tail _ step ih =>
      rcases step with ⟨name, names, enters⟩
      rcases enter_eq_some_iff.mp enters with ⟨_, file, _, rfl, _⟩
      exact List.mem_append_left _ ih

/-- There are not more loaded files than files that parse. -/
theorem Loaded.length_le (loaded : Loaded machFiles files) :
    files.length ≤ machFiles.finite.toFinset.card := by
  have parse : (files.map (·.fileName)).toFinset ⊆ machFiles.finite.toFinset := by
    intro name present
    simp only [List.mem_toFinset, List.mem_map] at present
    rcases present with ⟨file, present, rfl⟩
    simp [loaded.parsed file present]
  have counts := Finset.card_le_card parse
  rwa [List.toFinset_card_of_nodup loaded.once, List.length_map] at counts

/-! ## Everything reachable, once -/

theorem exists_returns (machFiles : MachFiles) (root : List Byte) :
    ∃ after, Returns machFiles.enter [] root after := by
  apply exists_returns_of_grows List.length machFiles.finite.toFinset.card
  · intro files name entered names enters
    rcases enter_eq_some_iff.mp enters with ⟨_, file, _, rfl, _⟩
    simp
  · intro later evolves
    exact (loaded_nil.of_evolves evolves).length_le

/-- A traversal from a file leaves it loaded if it parses. -/
theorem mem_of_returns {file : MDBMachFile} (loaded : Loaded machFiles files)
    (returned : Returns machFiles.enter files fileName after)
    (parsed : machFiles.parse fileName = some file) : file ∈ after := by
  cases known : hasFile files fileName with
  | true =>
      rcases hasFile_iff.mp known with ⟨other, present, rfl⟩
      have same := loaded.parsed other present
      simp only [parsed, Option.some.injEq] at same
      rw [same]
      exact mem_of_evolves present returned.evolves
  | false =>
      have enters := enter_eq_some_iff.mpr ⟨known, file, parsed, rfl, rfl⟩
      have path := (returns_of_entered enters).mp returned
      apply mem_of_evolves (List.mem_append_right files List.mem_cons_self)
      exact path.evolves fun _ _ _ callee => callee.evolves

/-- A file was entered in one of the calls made for the root. -/
def EnteredFrom (machFiles : MachFiles) (root : List Byte) (file : MDBMachFile) : Prop :=
  ∃ files entered dylibNames, Reaches machFiles.enter ([], root) (files, file.fileName) ∧
    machFiles.enter files file.fileName = some (entered, dylibNames)

theorem enteredFrom_of_returns (returned : Returns machFiles.enter [] root after) :
    ∀ file ∈ after, EnteredFrom machFiles root file := by
  apply returned.invariant
  · rintro ⟨files, name⟩ entered names reaches earlier enters
    rcases enter_eq_some_iff.mp enters with ⟨_, file, parsed, rfl, _⟩
    intro other present
    rcases List.mem_append.mp present with old | latest
    · exact earlier other old
    · have named : file.fileName = name := machFiles.fileName parsed
      subst named
      rw [List.mem_singleton.mp latest]
      exact ⟨files, _, names, reaches, enters⟩
  · intro file none
    cases none

/-- The calls are made for files that are reachable. -/
theorem reachable_of_reaches {call : List MDBMachFile × List Byte}
    (reaches : Reaches machFiles.enter ([], root) call) : machFiles.Reachable root call.2 := by
  induction reaches with
  | refl => exact .refl
  | tail _ calls ih =>
      rcases calls with ⟨entered, before, rest, enters, _⟩
      rcases enter_eq_some_iff.mp enters with ⟨_, file, parsed, _, names⟩
      apply ih.tail
      exact ⟨file, parsed, by simp [← names]⟩

/-- What a loaded file names is loaded as well if it parses. -/
theorem mem_of_refers {file dylib : MDBMachFile} {dylibName : List Byte}
    (returned : Returns machFiles.enter [] root after) (present : file ∈ after)
    (named : dylibName ∈ references file) (parsed : machFiles.parse dylibName = some dylib) :
    dylib ∈ after := by
  rcases enteredFrom_of_returns returned file present with
    ⟨files, entered, names, reaches, enters⟩
  have loaded := loaded_nil.of_evolves returned.evolves
  rcases enter_eq_some_iff.mp enters with ⟨_, same, parsedAgain, _, rfl⟩
  simp only [loaded.parsed file present, Option.some.injEq] at parsedAgain
  subst parsedAgain
  rcases returned.of_reaches reaches with ⟨middle, returnedHere, _⟩
  rcases returnedHere.exists_calls enters named with ⟨atCall, calls⟩
  have reachesCall := reaches.tail calls
  rcases returned.of_reaches reachesCall with ⟨later, returnedCall, evolves⟩
  have loadedAtCall : Loaded machFiles atCall := loaded_nil.of_evolves (Reaches.evolves reachesCall)
  exact mem_of_evolves (mem_of_returns loadedAtCall returnedCall parsed) evolves

theorem mem_iff_of_returns (returned : Returns machFiles.enter [] root after)
    (file : MDBMachFile) :
    file ∈ after ↔ ∃ name, machFiles.Reachable root name ∧ machFiles.parse name = some file := by
  have loaded := loaded_nil.of_evolves returned.evolves
  constructor
  · intro present
    rcases enteredFrom_of_returns returned file present with ⟨_, _, _, reaches, _⟩
    exact ⟨file.fileName, reachable_of_reaches reaches, loaded.parsed file present⟩
  · rintro ⟨name, reachable, parsed⟩
    induction reachable generalizing file with
    | refl => exact mem_of_returns loaded_nil returned parsed
    | tail _ refers ih =>
        rcases refers with ⟨referrer, parsedReferrer, named⟩
        exact mem_of_refers returned (ih referrer parsedReferrer) named parsed

/--
Loading returns, from some depth of recursion on, with true exactly if the root parses;
the loaded files are then the reachable ones that parse, each once.
-/
theorem loadSymbols_loads (machFiles : MachFiles) (root : List Byte) :
    ∃ depth files,
      (∀ more ≥ depth, machFiles.loadSymbols more [] root =
        some ((machFiles.parse root).isSome, files)) ∧
      (files.map (·.fileName)).Nodup ∧
      (∀ file, file ∈ files ↔
        ∃ name, machFiles.Reachable root name ∧ machFiles.parse name = some file) ∧
      (machFiles.parse root = none → files = []) := by
  rcases exists_returns machFiles root with ⟨files, depth, visited⟩
  have returned : Returns machFiles.enter [] root files := ⟨depth, visited⟩
  refine ⟨depth, files, ?_, ?_, mem_iff_of_returns returned, ?_⟩
  · intro more enough
    apply loadSymbols_of_visit rfl
    exact visit_mono visited enough
  · exact (loaded_nil.of_evolves returned.evolves).once
  · intro fails
    exact (returns_of_pruned (enter_eq_none_iff.mpr (Or.inr fails))).mp returned

end MachFiles

end RustDbg
