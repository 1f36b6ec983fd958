import RustDbg.Image.Faithful

/-!
# Segments and their sections

A segment command is followed by as many section headers as it says. The reader does
not ask how many there are: it takes whatever follows the command for the header of one
section, which makes an entry point if it is the program text.
-/

namespace RustDbg

open Buffer

def sizeofSection : Nat := 68

structure SectionHeader where
  sectname : List Byte
  segname : List Byte
  addr : BitVec 32

def SectionHeader.isText (header : SectionHeader) : Bool :=
  fieldString header.segname = textSegment ∧ fieldString header.sectname = textSection

/-- A load command; a segment has the headers of all its sections. -/
inductive SectionedCommand where
  | segment (sections : List SectionHeader)
  | plain (command : MachCommand)

/-- The addresses of the text sections of some load commands. -/
def texts (commands : List SectionedCommand) : List Address :=
  commands.flatMap fun
    | .segment sections => (sections.filter (·.isText)).map fun header => header.addr.setWidth 64
    | .plain _ => []

/-! ## The bytes of an image -/

structure SectionAt (image : List Byte) (position : Nat) (header : SectionHeader) : Prop where
  inside : position + sizeofSection ≤ image.length
  sectname : FieldAt image position 16 header.sectname
  segname : FieldAt image (position + 16) 16 header.segname
  addr : wordAt image (position + 32) = some header.addr

structure SegmentAt (image : List Byte) (position : Nat) (sections : List SectionHeader) :
    Prop where
  inside : position + sizeofSegmentCommand ≤ image.length
  cmd : wordAt image position = some LC_SEGMENT
  cmdsize : (word image (position + 4)).toNat =
    sizeofSegmentCommand + sizeofSection * sections.length
  nsects : (word image (position + 48)).toNat = sections.length
  sections : ∀ i header, sections[i]? = some header →
    SectionAt image (position + sizeofSegmentCommand + sizeofSection * i) header

/-- The command is stored at a position; segments are not plain commands. -/
def SectionedCommand.StoredAt (image : List Byte) (position : Nat) : SectionedCommand → Prop
  | .segment sections => SegmentAt image position sections
  | .plain command => CommandAt image position command ∧
      wordAt image position ≠ some LC_SEGMENT ∧ position + 8 ≤ image.length

/-- Where the load command behind the one at a position is. -/
def nextCommand (image : List Byte) (position : Nat) : Nat :=
  position + (word image (position + 4)).toNat

/-- A property of each command and its position, where they follow one another from one on. -/
def Along (image : List Byte) (holds : Nat → SectionedCommand → Prop) :
    Nat → List SectionedCommand → Prop
  | _, [] => True
  | position, command :: rest =>
      holds position command ∧ Along image holds (nextCommand image position) rest

def CommandsStored (image : List Byte) : Nat → List SectionedCommand → Prop :=
  Along image fun position command => command.StoredAt image position

/-- The bytes of a well-formed image with its segments and their sections. -/
structure WellSectioned (image : List Byte) (commands : List SectionedCommand) : Prop where
  header : MachHeader image commands.length
  stored : CommandsStored image sizeofMachHeader commands

/-! ## What is asked of the reader -/

namespace MDBMachFile

/-- The addresses of the symbols of a file that have the name of an entry point. -/
def entryPoints (file : MDBMachFile) : List Address :=
  (file.symbols.filter fun symbol =>
    symbol.name.characters file.buffer = some entryPointName).map (·.address)

/--
From every file of the image the reader makes one entry point for each text section,
and each of them where it reads the command that the section belongs to.
-/
def FindsTexts (log : MDBLog) (fileName image : List Byte) (commands : List SectionedCommand) :
    Prop :=
  ∀ content, FileOf image content →
    (∃ accepted file, parse log (some content) (create fileName) = some (accepted, file) ∧
      file.entryPoints = texts commands) ∧
    ∀ base, findImage content = some (some base) → ∀ count ≤ commands.length,
      ∃ loaded, loadCommands log content count (base + sizeofMachHeader) ⟨none, [], []⟩ =
          some loaded ∧
        loaded.symbols = (texts (commands.take count)).map entryPoint

end MDBMachFile

/-- What is behind a segment command, down to where a comparison ends, is no program text. -/
def NoTextBehind (image : List Byte) (position : Nat) : Prop :=
  DiffersAt image (position + 16) textSegment ∨
    StoredAt (textSegment ++ [0#8]) image (position + 16) ∧ DiffersAt image position textSection

/--
In a segment with sections only the first may be a program text; a segment without
sections is not followed by what would be the header of one.
-/
def SectionedCommand.FirstOnly (image : List Byte) (position : Nat) : SectionedCommand → Prop
  | .segment [] => NoTextBehind image (position + sizeofSegmentCommand)
  | .segment (_ :: others) => ∀ header ∈ others, header.isText = false
  | .plain _ => True

def FirstOnly (image : List Byte) : Nat → List SectionedCommand → Prop :=
  Along image fun position command => command.FirstOnly image position

/-! ## The commands as the reader sees them -/

/-- A segment without sections is nothing to the reader unless it takes it for a program text. -/
def SectionedCommand.view : SectionedCommand → MachCommand
  | .segment [] => .other LC_SEGMENT
  | .segment (first :: _) => .segment first.sectname first.segname first.addr
  | .plain command => command

/-- No defined symbol of the last symbol table is named as an entry point. -/
def TableUnnamed (commands : List SectionedCommand) : Prop :=
  ∀ entries, MachImage.symbolTable (commands.map (·.view)) = some entries →
    ∀ entry ∈ entries, entry.defined = true → entry.name ≠ entryPointName

/-- What it takes for the reader to find the program texts. -/
structure Findable (log : MDBLog) (fileName image : List Byte)
    (commands : List SectionedCommand) : Prop where
  firstOnly : FirstOnly image sizeofMachHeader commands
  logs : MDBMachFile.LogsNames log fileName (commands.map (·.view))
  table : TableUnnamed commands

open MDBMachFile

variable {log : MDBLog} {fileName image content : List Byte} {base position : Nat}

theorem isTextSection_eq_false_iff :
    isTextSection image position = some false ↔
      NoTextBehind image (position + sizeofSegmentCommand) := by
  simp only [NoTextBehind, ← equalsAt_eq_false_iff, ← equalsAt_eq_true_iff, isTextSection]
  rcases equalsAt image (position + sizeofSegmentCommand + 16) textSegment with _ | _ | _
  · simp
  · simp
  · simp

theorem isTextSection_of_storedAt {text : Bool} (stored : StoredAt image content base)
    (found : isTextSection image position = some text) :
    isTextSection content (base + position) = some text := by
  simp only [isTextSection, Option.bind_eq_bind, Option.bind_eq_some_iff] at found ⊢
  rcases found with ⟨segment, compared, found⟩
  have comparedAgain := stored.equalsAt compared
  simp only [← Nat.add_assoc] at comparedAgain
  refine ⟨segment, comparedAgain, ?_⟩
  cases segment with
  | false => exact found
  | true =>
      have foundAgain := stored.equalsAt found
      simp only [← Nat.add_assoc] at foundAgain
      exact foundAgain

/-- The first of a segment's sections is what the reader looks at. -/
theorem SegmentAt.commandAt {first : SectionHeader} {others : List SectionHeader}
    (present : SegmentAt image position (first :: others)) :
    CommandAt image position (.segment first.sectname first.segname first.addr) := by
  have firstAt := present.sections 0 first rfl
  simp only [Nat.mul_zero, Nat.add_zero] at firstAt
  exact .segment present.cmd firstAt.inside firstAt.sectname firstAt.segname firstAt.addr

theorem SegmentAt.loadCommand_none (present : SegmentAt image position [])
    (noText : NoTextBehind image (position + sizeofSegmentCommand))
    (stored : StoredAt image content base) (state : LoadState) :
    loadCommand log content (base + position) state = some state := by
  have quiet := isTextSection_of_storedAt stored (isTextSection_eq_false_iff.mpr noText)
  simp [loadCommand_segment (stored.wordAt present.cmd), quiet]

theorem SectionedCommand.StoredAt.wordAt_cmdsize {command : SectionedCommand}
    (present : command.StoredAt image position) :
    wordAt image (position + 4) = some (word image (position + 4)) := by
  apply wordAt_of_le
  cases command with
  | segment sections =>
      have inside := present.inside
      simp only [sizeofSegmentCommand] at inside
      omega
  | plain command => exact present.2.2

theorem loadCommand_of_stored {command : SectionedCommand}
    (stored : StoredAt image content base) (present : command.StoredAt image position)
    (firstOnly : command.FirstOnly image position) (logs : LogsDylibs log [command.view])
    (state : LoadState) :
    ∃ loaded, loadCommand log content (base + position) state = some loaded ∧
      Loads image content base [command.view] state loaded := by
  match command with
  | .segment [] =>
      exact ⟨state, SegmentAt.loadCommand_none present firstOnly stored state,
        loads_other LC_SEGMENT state⟩
  | .segment (_ :: _) =>
      exact loadCommand_of_commandAt stored (SegmentAt.commandAt present) logs state
  | .plain _ => exact loadCommand_of_commandAt stored present.1 logs state

/-- The reader reads the commands as it sees them. -/
theorem loadCommands_of_stored {commands : List SectionedCommand}
    (stored : StoredAt image content base) (present : CommandsStored image position commands)
    (firstOnly : FirstOnly image position commands)
    (logs : LogsDylibs log (commands.map (·.view))) (state : LoadState) :
    ∃ loaded, loadCommands log content commands.length (base + position) state = some loaded ∧
      Loads image content base (commands.map (·.view)) state loaded := by
  induction commands generalizing position state with
  | nil => exact loadCommands_of_commandsAt stored (@CommandsAt.nil image position) logs state
  | cons command rest ih =>
      rcases logsDylibs_cons.mp logs with ⟨logsFirst, logsRest⟩
      rcases loadCommand_of_stored stored present.1 firstOnly.1 logsFirst state with
        ⟨middle, ran, adds⟩
      rcases ih present.2 firstOnly.2 logsRest middle with ⟨loaded, ranRest, addsRest⟩
      refine ⟨loaded, ?_, adds.cons addsRest⟩
      have size := stored.wordAt present.1.wordAt_cmdsize
      simp only [← Nat.add_assoc, nextCommand] at size ranRest
      simp only [List.length_cons, loadCommands_succ ran size]
      exact ranRest

theorem logsDylibs_of_stored {commands : List SectionedCommand} {state loaded : LoadState}
    (stored : StoredAt image content base) (present : CommandsStored image position commands)
    (ran : loadCommands log content commands.length (base + position) state = some loaded) :
    LogsDylibs log (commands.map (·.view)) := by
  induction commands generalizing position state with
  | nil => exact logsDylibs_of_loadCommands stored (@CommandsAt.nil image position) ran
  | cons command rest ih =>
      have size := stored.wordAt present.1.wordAt_cmdsize
      simp only [← Nat.add_assoc] at size
      simp only [List.length_cons, loadCommands, size, Option.bind_eq_bind, Option.bind_some,
        Option.bind_eq_some_iff] at ran
      rcases ran with ⟨middle, ranFirst, ranRest⟩
      rw [Nat.add_assoc] at ranRest
      refine logsDylibs_cons.mpr ⟨?_, ih present.2 ranRest⟩
      cases command with
      | segment headers => cases headers <;> exact logsDylibs_of_quiet rfl
      | plain command => exact logsDylibs_of_loadCommand stored present.1.1 ranFirst

theorem texts_cons (command : SectionedCommand) (rest : List SectionedCommand) :
    texts (command :: rest) = texts [command] ++ texts rest := by
  simp [texts]

theorem entryPoints_segment (first : SectionHeader) :
    MachImage.entryPoints [.segment first.sectname first.segname first.addr] =
      ([first].filter (·.isText)).map fun header => header.addr.setWidth 64 := by
  by_cases text : fieldString first.segname = textSegment ∧ fieldString first.sectname = textSection
  · simp [MachImage.entryPoints, SectionHeader.isText, text]
  · simp [MachImage.entryPoints, SectionHeader.isText, text]

theorem entryPoints_plain {command : MachCommand} (present : CommandAt image position command)
    (plain : wordAt image position ≠ some LC_SEGMENT) : MachImage.entryPoints [command] = [] := by
  cases present with
  | segment cmd => exact absurd cmd plain
  | symtab => rfl
  | loadDylib => rfl
  | other => rfl

theorem SectionedCommand.FirstOnly.entryPoints_view {command : SectionedCommand}
    (firstOnly : command.FirstOnly image position) (present : command.StoredAt image position) :
    MachImage.entryPoints [command.view] = texts [command] := by
  match command with
  | .segment [] => rfl
  | .segment (first :: others) =>
      have noOther : ∀ header ∈ others, header.isText = false := firstOnly
      have none : others.filter (·.isText) = [] := by
        simpa [List.filter_eq_nil_iff] using noOther
      simp only [view, entryPoints_segment, texts, List.flatMap_singleton, List.filter_cons, none,
        List.filter_nil]
  | .plain _ => exact entryPoints_plain present.1 present.2.1

/-- As the reader sees them, the commands have the text sections as entry points. -/
theorem entryPoints_view {commands : List SectionedCommand}
    (present : CommandsStored image position commands)
    (firstOnly : FirstOnly image position commands) :
    MachImage.entryPoints (commands.map (·.view)) = texts commands := by
  induction commands generalizing position with
  | nil => rfl
  | cons command rest ih =>
      rw [List.map_cons, MachImage.entryPoints_cons, texts_cons, ih present.2 firstOnly.2,
        firstOnly.1.entryPoints_view present.1]

theorem Along.take {holds : Nat → SectionedCommand → Prop} {commands : List SectionedCommand}
    (along : Along image holds position commands) (count : Nat) :
    Along image holds position (commands.take count) := by
  induction commands generalizing position count with
  | nil => simpa using along
  | cons command rest ih =>
      cases count with
      | zero => trivial
      | succ count => exact ⟨along.1, ih along.2 count⟩

/-! ## What the reader needs -/

/-- A command from which the reader makes what it should is one that it can read. -/
theorem SectionedCommand.StoredAt.firstOnly_of_loadCommand {command : SectionedCommand}
    {state loaded : LoadState} (present : command.StoredAt image position)
    (ran : loadCommand log image position state = some loaded)
    (adds : loaded.symbols = state.symbols ++ (texts [command]).map entryPoint) :
    command.FirstOnly image position := by
  match command with
  | .segment [] =>
      simp only [loadCommand_segment (SegmentAt.cmd present), Option.bind_eq_bind,
        Option.bind_eq_some_iff] at ran
      rcases ran with ⟨text, found, ran⟩
      cases text with
      | false => exact isTextSection_eq_false_iff.mp found
      | true =>
          simp only [if_true, Option.bind_eq_some_iff, pure, Option.some.injEq] at ran
          rcases ran with ⟨addr, _, rfl⟩
          simp [texts] at adds
  | .segment (first :: others) =>
      rcases loadCommand_of_commandAt (StoredAt.refl image) (SegmentAt.commandAt present)
        (@logsDylibs_of_quiet log _ rfl) state with ⟨again, ranAgain, loads⟩
      simp only [Nat.zero_add, ran, Option.some.injEq] at ranAgain
      subst ranAgain
      simp only [loads.symbols, entryPoints_segment] at adds
      have split : (first :: others).filter (·.isText) =
          [first].filter (·.isText) ++ others.filter (·.isText) :=
        List.filter_append [first] others
      have counts := congrArg List.length adds
      simp only [List.length_append, List.length_map, texts, List.flatMap_singleton,
        split] at counts
      have none : others.filter (·.isText) = [] := by
        apply List.eq_nil_of_length_eq_zero
        omega
      intro header present
      simpa using List.filter_eq_nil_iff.mp none header present
  | .plain _ => trivial

theorem firstOnly_of_loadCommands {commands : List SectionedCommand} {state : LoadState}
    (present : CommandsStored image position commands)
    (adds : ∀ count ≤ commands.length, ∃ loaded,
      loadCommands log image count position state = some loaded ∧
        loaded.symbols = state.symbols ++ (texts (commands.take count)).map entryPoint) :
    FirstOnly image position commands := by
  induction commands generalizing position state with
  | nil => trivial
  | cons command rest ih =>
      have size := present.1.wordAt_cmdsize
      rcases adds 1 (Nat.succ_le_succ (Nat.zero_le _)) with ⟨middle, ran, addsFirst⟩
      simp only [loadCommands, Option.bind_eq_bind, Option.bind_eq_some_iff, size,
        Option.some.injEq, exists_eq_left'] at ran
      rcases ran with ⟨same, ran, rfl⟩
      refine ⟨present.1.firstOnly_of_loadCommand ran addsFirst, ?_⟩
      apply ih present.2
      intro count bound
      rcases adds (count + 1) (Nat.succ_le_succ bound) with ⟨loaded, ranAll, addsAll⟩
      refine ⟨loaded, ?_, ?_⟩
      · rw [loadCommands_succ ran size] at ranAll
        exact ranAll
      · rw [List.take_succ_cons, texts_cons] at addsAll
        simp only [addsAll, addsFirst, List.map_append, List.append_assoc]
        rfl

namespace MDBMachFile

variable {commands : List SectionedCommand}

theorem entryPoints_of_symbols {file : MDBMachFile} {addresses : List Address}
    {table : List MDBSymbol} (symbols : file.symbols = addresses.map entryPoint ++ table) :
    file.entryPoints = addresses ++ (table.filter fun symbol =>
      symbol.name.characters file.buffer = some entryPointName).map (·.address) := by
  have all : (addresses.map entryPoint).filter (fun symbol =>
      symbol.name.characters file.buffer = some entryPointName) = addresses.map entryPoint := by
    apply List.filter_eq_self.mpr
    intro symbol present
    rcases List.mem_map.mp present with ⟨address, _, rfl⟩
    simp [entryPoint, SymbolName.characters]
  have addresses_eq : (addresses.map entryPoint).map (·.address) = addresses := by
    rw [List.map_map]
    exact List.map_id _
  rw [entryPoints, symbols, List.filter_append, all, List.map_append, addresses_eq]

/-- A table has no entry point if none of the defined symbols it was made from is named as one. -/
theorem noEntryPoint_iff {entries : List SymbolEntry} {table : List MDBSymbol}
    (resolved : table.map (fun symbol => (symbol.name.characters content, symbol.address)) =
      (entries.filter (·.defined)).map fun entry =>
        (some entry.name, entry.n_value.setWidth 64)) :
    table.filter (fun symbol => symbol.name.characters content = some entryPointName) = [] ↔
      ∀ entry ∈ entries, entry.defined = true → entry.name ≠ entryPointName := by
  have names := congrArg (List.map Prod.fst) resolved
  simp only [List.map_map, Function.comp_def] at names
  have same : (∀ name ∈ table.map (fun symbol => symbol.name.characters content),
      name ≠ some entryPointName) ↔
        ∀ name ∈ (entries.filter (·.defined)).map (fun entry => some entry.name),
          name ≠ some entryPointName := by
    rw [names]
  simp only [List.forall_mem_map, List.mem_filter, and_imp, ne_eq, Option.some.injEq] at same
  simpa [List.filter_eq_nil_iff] using same

/-- What the reader makes of a file of an image whose commands it takes as they are. -/
theorem exists_parse_of_stored (terminated : 0#8 ∉ fileName)
    (logs : LogsNames log fileName (commands.map (·.view)))
    (wellSectioned : WellSectioned image commands)
    (firstOnly : FirstOnly image sizeofMachHeader commands)
    (found : findImage content = some (some base)) (stored : StoredAt image content base) :
    ∃ accepted file, parse log (some content) (create fileName) = some (accepted, file) ∧
      (file.entryPoints = texts commands ↔ TableUnnamed commands) := by
  rcases loadCommands_of_stored stored wellSectioned.stored firstOnly logs.dylibs
    ⟨none, [], []⟩ with ⟨loaded, ran, loads⟩
  have parsed := parse_of_loadCommands (logName_of_logsName terminated logs.fileName)
    wellSectioned.header found stored ran
  have symbols := loads.symbols
  simp only [entryPoints_view wellSectioned.stored firstOnly, List.nil_append] at symbols
  cases lastTable : MachImage.symbolTable (commands.map (·.view)) with
  | none =>
      simp only [loads.kept lastTable] at parsed
      refine ⟨_, _, parsed, ?_⟩
      have whole := @entryPoints_of_symbols
        ⟨fileName, content, loaded.symbols, loaded.dylibs⟩ (texts commands) []
        (by simpa using symbols)
      simp [whole, TableUnnamed, lastTable]
  | some entries =>
      rcases loads.found entries lastTable with ⟨position, symtabCommand, command⟩
      rcases @parseTable_of_symtab image base position entries
        ⟨fileName, content, loaded.symbols, loaded.dylibs⟩ stored command with
        ⟨table, tableParsed, resolved, -⟩
      simp only [symtabCommand, tableParsed] at parsed
      refine ⟨_, _, parsed, ?_⟩
      have whole := @entryPoints_of_symbols
        ⟨fileName, content, loaded.symbols ++ table, loaded.dylibs⟩ (texts commands) table
        (by simp only [symbols])
      rw [whole, List.append_right_eq_self, List.map_eq_nil_iff, noEntryPoint_iff resolved]
      simp [TableUnnamed, lastTable]

/-- Finding the texts of the image as a thin file is enough. -/
theorem FindsTexts.findable (finds : FindsTexts log fileName image commands)
    (terminated : 0#8 ∉ fileName) (wellSectioned : WellSectioned image commands) :
    Findable log fileName image commands := by
  have found := findImage_thin wellSectioned.header.magic
  rcases finds image .thin with ⟨⟨accepted, file, ran, texts⟩, attributed⟩
  have adds := attributed 0 found
  simp only [Nat.zero_add] at adds
  have firstOnly := firstOnly_of_loadCommands wellSectioned.stored adds
  have logs : LogsNames log fileName (commands.map (·.view)) := by
    refine ⟨logsName_of_parse terminated ran, ?_⟩
    rcases adds commands.length (Nat.le_refl _) with ⟨loaded, ranCommands, -⟩
    rw [← Nat.zero_add sizeofMachHeader] at ranCommands
    exact logsDylibs_of_stored (StoredAt.refl image) wellSectioned.stored ranCommands
  refine ⟨firstOnly, logs, ?_⟩
  rcases exists_parse_of_stored terminated logs wellSectioned firstOnly found
    (StoredAt.refl image) with ⟨acceptedAgain, again, ranAgain, unnamed⟩
  simp only [ran, Option.some.injEq, Prod.mk.injEq] at ranAgain
  rw [← ranAgain.2] at unnamed
  exact unnamed.mp texts

theorem findsTexts_of_findable (findable : Findable log fileName image commands)
    (terminated : 0#8 ∉ fileName) (wellSectioned : WellSectioned image commands) :
    FindsTexts log fileName image commands := by
  intro content fileOf
  rcases findImage_of_fileOf wellSectioned.header.magic fileOf with ⟨base, found, stored⟩
  constructor
  · rcases exists_parse_of_stored terminated findable.logs wellSectioned findable.firstOnly found
      stored with ⟨accepted, file, ran, unnamed⟩
    exact ⟨accepted, file, ran, unnamed.mpr findable.table⟩
  · intro other otherFound count bound
    simp only [found, Option.some.injEq] at otherFound
    subst otherFound
    have present := Along.take wellSectioned.stored count
    have readable := Along.take findable.firstOnly count
    have logs : LogsDylibs log ((commands.take count).map (·.view)) :=
      findable.logs.dylibs.sublist ((List.take_sublist count commands).map _)
    rcases loadCommands_of_stored stored present readable logs ⟨none, [], []⟩ with
      ⟨loaded, ran, loads⟩
    rw [List.length_take_of_le bound] at ran
    refine ⟨loaded, ran, ?_⟩
    simp only [loads.symbols, entryPoints_view present readable, List.nil_append]

/--
The reader finds the program texts of a well-formed image exactly when its segments have them
first and behind those without sections nothing looks like one, no symbol of its table has the
name of an entry point, and the names that are logged can be printed.
-/
theorem findsTexts_iff (log : MDBLog) (terminated : 0#8 ∉ fileName)
    (wellSectioned : WellSectioned image commands) :
    FindsTexts log fileName image commands ↔ Findable log fileName image commands := by
  constructor
  · intro finds
    exact finds.findable terminated wellSectioned
  · intro findable
    exact findsTexts_of_findable findable terminated wellSectioned

/-- An executable with its program text behind another section of the same segment. -/
def lateText : List Byte :=
  [0xfeedface, 7, 3, 2, 2, 216, 0].flatMap (LittleEndian.toBytes 4) ++
  -- `LC_SEGMENT` for `__TEXT` with two sections
  [0x1, 192, 0x45545f5f, 0x5458, 0, 0, 0x1000, 0x1000, 0, 0x1000, 7, 5, 2, 0].flatMap
    (LittleEndian.toBytes 4) ++
  -- `__cstring`
  [0x73635f5f, 0x6e697274, 0x67, 0, 0x45545f5f, 0x5458, 0, 0, 0x1100, 16, 0, 0, 0, 0, 0, 0,
    0].flatMap (LittleEndian.toBytes 4) ++
  -- `__text`
  [0x65745f5f, 0x7478, 0, 0, 0x45545f5f, 0x5458, 0, 0, 0x1200, 16, 0, 0, 0, 0, 0, 0,
    0].flatMap (LittleEndian.toBytes 4) ++
  -- `LC_SYMTAB`
  [0x2, 24, 244, 0, 244, 0].flatMap (LittleEndian.toBytes 4)

def lateTextSections : List SectionHeader :=
  [⟨[0x73635f5f, 0x6e697274, 0x67, 0].flatMap (LittleEndian.toBytes 4),
      [0x45545f5f, 0x5458, 0, 0].flatMap (LittleEndian.toBytes 4), 0x1100#32⟩,
    ⟨[0x65745f5f, 0x7478, 0, 0].flatMap (LittleEndian.toBytes 4),
      [0x45545f5f, 0x5458, 0, 0].flatMap (LittleEndian.toBytes 4), 0x1200#32⟩]

def lateTextCommands : List SectionedCommand :=
  [.segment lateTextSections, .plain (.symtab [])]

set_option maxRecDepth 4000 in
theorem wellSectioned_lateText : WellSectioned lateText lateTextCommands := by
  constructor
  · exact ⟨rfl, ⟨_, rfl, Or.inl rfl⟩, ⟨_, rfl, rfl⟩⟩
  · have segment : SegmentAt lateText sizeofMachHeader lateTextSections := by
      refine ⟨?_, rfl, rfl, rfl, ?_⟩
      · decide
      · intro i header present
        match i, present with
        | 0, rfl => exact ⟨by decide, ⟨rfl, _, rfl⟩, ⟨rfl, _, rfl⟩, rfl⟩
        | 1, rfl => exact ⟨by decide, ⟨rfl, _, rfl⟩, ⟨rfl, _, rfl⟩, rfl⟩
    have symtab : CommandAt lateText 220 (.symtab []) := by
      apply CommandAt.symtab rfl rfl rfl rfl rfl
      intro i entry present
      cases present
    exact ⟨segment, ⟨symtab, by decide, by decide⟩, trivial⟩

theorem findsTexts_iff_lateText :
    FindsTexts (.create none) (ascii "a.out") lateText lateTextCommands ↔
      Findable (.create none) (ascii "a.out") lateText lateTextCommands :=
  findsTexts_iff (.create none) (by decide) wellSectioned_lateText

/-- The reader looks at the first section only and misses the program text. -/
theorem not_findsTexts_lateText :
    WellSectioned lateText lateTextCommands ∧
      ¬FindsTexts (.create none) (ascii "a.out") lateText lateTextCommands := by
  refine ⟨wellSectioned_lateText, ?_⟩
  intro finds
  have findable := finds.findable (by decide) wellSectioned_lateText
  have others := findable.firstOnly.1 lateTextSections[1] List.mem_cons_self
  cases others

end MDBMachFile

end RustDbg
