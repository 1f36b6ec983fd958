import RustDbg.Image.Format

/-!
# The reader recovers what an image says

The loops over the load commands and over the symbol table are followed along the
description of the image, at any position the image is stored at. Nothing the reader
keeps depends on that position once names are read from the buffer. It gets as far as
that unless the log traces a name that it cannot print.
-/

namespace RustDbg

open Buffer

/-- The characters a name points to in the buffer of its file. -/
def SymbolName.characters (buffer : List Byte) : SymbolName → Option (List Byte)
  | .ENTRY_POINT_SYMBOL_NAME => some entryPointName
  | .inBuffer position => stringAt buffer position

namespace MDBMachFile

/-- The symbols in order, by name and address. -/
def namedSymbols (file : MDBMachFile) (symbols : List MDBSymbol) :
    List (Option (List Byte) × Address) :=
  symbols.map fun symbol => (symbol.name.characters file.buffer, symbol.address)

def dylibNames (file : MDBMachFile) : List (Option (List Byte)) :=
  file.dylibs.map fun dylib => stringAt file.buffer dylib.fileName

/-- The symbols other than the entry points. -/
def tableSymbols (file : MDBMachFile) : List MDBSymbol :=
  file.symbols.filter (·.name ≠ .ENTRY_POINT_SYMBOL_NAME)

end MDBMachFile

/-! ## The load commands -/

section Commands

open MDBMachFile

variable {image content : List Byte} {base : Nat}

theorem isTextSection_of_fields {position : Nat} {sectname segname : List Byte}
    (stored : StoredAt image content base)
    (sectnameAt : FieldAt image (position + sizeofSegmentCommand) 16 sectname)
    (segnameAt : FieldAt image (position + sizeofSegmentCommand + 16) 16 segname) :
    isTextSection content (base + position) =
      some (decide (fieldString segname = textSegment ∧ fieldString sectname = textSection)) := by
  have segment : equalsAt content (base + position + sizeofSegmentCommand + 16) textSegment =
      some (decide (fieldString segname = textSegment)) := by
    simp only [Nat.add_assoc base]
    apply stored.equalsAt
    apply equalsAt_field segnameAt.2
    · rw [segnameAt.1]
      decide
    · decide
  have sect : equalsAt content (base + position + sizeofSegmentCommand) textSection =
      some (decide (fieldString sectname = textSection)) := by
    simp only [Nat.add_assoc base]
    apply stored.equalsAt
    apply equalsAt_field sectnameAt.2
    · rw [sectnameAt.1]
      decide
    · decide
  simp only [isTextSection, segment, sect, Option.bind_eq_bind, Option.bind_some, pure]
  by_cases text : fieldString segname = textSegment <;> simp [text]

/-- If the reader's messages are traced, those for the libraries of some commands can be printed. -/
def LogsDylibs (log : MDBLog) (commands : List MachCommand) : Prop :=
  ∀ name ∈ MachImage.dylibNames commands, LogsName log dylibMessage name

theorem logsDylibs_cons {log : MDBLog} {command : MachCommand} {rest : List MachCommand} :
    LogsDylibs log (command :: rest) ↔ LogsDylibs log [command] ∧ LogsDylibs log rest := by
  simp only [LogsDylibs, MachImage.dylibNames_cons command rest, List.mem_append, or_imp,
    forall_and]

theorem LogsDylibs.sublist {log : MDBLog} {commands fewer : List MachCommand}
    (logs : LogsDylibs log commands) (among : fewer.Sublist commands) : LogsDylibs log fewer :=
  fun name present => logs name ((among.filterMap _).subset present)

theorem logsDylibs_of_quiet {log : MDBLog} {command : MachCommand}
    (quiet : MachImage.dylibNames [command] = []) : LogsDylibs log [command] := by
  simp [LogsDylibs, quiet]

/-- The symbol made for a program text. -/
def entryPoint (address : Address) : MDBSymbol := ⟨.ENTRY_POINT_SYMBOL_NAME, address⟩

/-- What reading some load commands adds to what has been collected. -/
structure Loads (image content : List Byte) (base : Nat) (commands : List MachCommand)
    (state loaded : LoadState) : Prop where
  symbols : loaded.symbols =
    state.symbols ++ (MachImage.entryPoints commands).map entryPoint
  dylibs : ∃ dylibs, loaded.dylibs = state.dylibs ++ dylibs ∧
    dylibs.map (fun dylib => stringAt content dylib.fileName) =
      (MachImage.dylibNames commands).map some
  kept : MachImage.symbolTable commands = none → loaded.symtabCommand = state.symtabCommand
  found : ∀ entries, MachImage.symbolTable commands = some entries →
    ∃ position, loaded.symtabCommand = some (base + position) ∧
      CommandAt image position (.symtab entries)

theorem loads_other (cmd : BitVec 32) (state : LoadState) :
    Loads image content base [.other cmd] state state := by
  refine ⟨(List.append_nil _).symm, ⟨[], (List.append_nil _).symm, rfl⟩, fun _ => rfl, ?_⟩
  intro entries table
  cases table

theorem Loads.cons {command : MachCommand} {rest : List MachCommand}
    {state middle loaded : LoadState} (first : Loads image content base [command] state middle)
    (others : Loads image content base rest middle loaded) :
    Loads image content base (command :: rest) state loaded := by
  constructor
  · rw [others.symbols, first.symbols, MachImage.entryPoints_cons command rest,
      List.map_append, List.append_assoc]
  · rcases first.dylibs with ⟨new, appended, names⟩
    rcases others.dylibs with ⟨newer, appendedRest, namesRest⟩
    refine ⟨new ++ newer, ?_, ?_⟩
    · simp only [appendedRest, appended, List.append_assoc]
    · rw [List.map_append, names, namesRest, MachImage.dylibNames_cons command rest,
        List.map_append]
  · intro missing
    rw [MachImage.symbolTable_cons, Option.or_eq_none_iff] at missing
    simp only [others.kept missing.1, first.kept missing.2]
  · intro entries table
    rw [MachImage.symbolTable_cons] at table
    rcases later : MachImage.symbolTable rest with _ | laterEntries
    · simp only [later, Option.none_or] at table
      rw [others.kept later]
      exact first.found entries table
    · simp only [later, Option.some_or] at table
      apply others.found
      simp only [later, table]

theorem loadCommand_of_commandAt {position : Nat} {command : MachCommand} {log : MDBLog}
    (stored : StoredAt image content base) (present : CommandAt image position command)
    (logs : LogsDylibs log [command]) (state : LoadState) :
    ∃ loaded, loadCommand log content (base + position) state = some loaded ∧
      Loads image content base [command] state loaded := by
  cases present with
  | @symtab entries symoff nsyms stroff cmd symoffAt nsymsAt stroffAt counted table =>
      refine ⟨{ state with symtabCommand := some (base + position) }, ?_, ?_, ⟨[], ?_, rfl⟩, ?_, ?_⟩
      · simp [loadCommand, stored.wordAt cmd]
      · simp [MachImage.entryPoints]
      · simp
      · intro missing
        simp [MachImage.symbolTable] at missing
      · intro found same
        simp only [MachImage.symbolTable, Option.some.injEq] at same
        subst same
        exact ⟨position, rfl, .symtab cmd symoffAt nsymsAt stroffAt counted table⟩
  | @segment sectname segname addr cmd inside sectnameAt segnameAt addrAt =>
      have text := isTextSection_of_fields stored sectnameAt segnameAt
      have address := stored.wordAt addrAt
      simp only [← Nat.add_assoc] at address
      refine ⟨{ state with
        symbols := state.symbols ++
          (MachImage.entryPoints [.segment sectname segname addr]).map entryPoint }, ?_, rfl,
        ⟨[], ?_, rfl⟩, ?_, ?_⟩
      · simp only [loadCommand_segment (stored.wordAt cmd), text, address, Option.bind_eq_bind,
          Option.bind_some, MachImage.entryPoints]
        by_cases isText : fieldString segname = textSegment ∧ fieldString sectname = textSection
        · simp [isText, entryPoint]
        · simp [isText]
      · simp
      · intro _
        rfl
      · intro entries table
        simp [MachImage.symbolTable] at table
  | @loadDylib name offset cmd offsetAt nameAt =>
      have offsetFound := stored.wordAt offsetAt
      have nameFound := stored.stringAt nameAt
      simp only [← Nat.add_assoc] at offsetFound nameFound
      have logged : logName log dylibMessage
          (stringAt content (base + position + offset.toNat)) = some () := by
        have comesOut := isSome_logName_dylib.mpr
          fun tracing => ⟨name, nameFound, logs name (by simp [MachImage.dylibNames]) tracing⟩
        rcases Option.isSome_iff_exists.mp comesOut with ⟨⟨⟩, logged⟩
        exact logged
      have notSymtab : LC_LOAD_DYLIB ≠ LC_SYMTAB := by decide
      have notSegment : LC_LOAD_DYLIB ≠ LC_SEGMENT := by decide
      refine ⟨{ state with
        dylibs := state.dylibs ++ [⟨base + position + offset.toNat⟩] }, ?_, ?_,
        ⟨_, rfl, ?_⟩, ?_, ?_⟩
      · simp [loadCommand, stored.wordAt cmd, offsetFound, logged, notSymtab, notSegment]
      · simp [MachImage.entryPoints]
      · simp [MachImage.dylibNames, nameFound]
      · intro _
        rfl
      · intro entries table
        simp [MachImage.symbolTable] at table
  | @other cmd cmdAt unknown =>
      refine ⟨state, ?_, loads_other cmd state⟩
      simp [loadCommand, stored.wordAt cmdAt, unknown]

/-- A command that is read to its end has logged what it had to. -/
theorem logsDylibs_of_loadCommand {position : Nat} {command : MachCommand} {log : MDBLog}
    {state loaded : LoadState} (stored : StoredAt image content base)
    (present : CommandAt image position command)
    (ran : loadCommand log content (base + position) state = some loaded) :
    LogsDylibs log [command] := by
  cases present with
  | @loadDylib name offset cmd offsetAt nameAt =>
      have offsetFound := stored.wordAt offsetAt
      have nameFound := stored.stringAt nameAt
      simp only [← Nat.add_assoc] at offsetFound nameFound
      have notSymtab : LC_LOAD_DYLIB ≠ LC_SYMTAB := by decide
      have notSegment : LC_LOAD_DYLIB ≠ LC_SEGMENT := by decide
      simp only [loadCommand, stored.wordAt cmd, offsetFound, if_neg notSymtab,
        if_neg notSegment, if_true, Option.bind_eq_bind, Option.bind_some,
        Option.bind_eq_some_iff] at ran
      rcases ran with ⟨_, logged, -⟩
      intro found present tracing
      simp only [MachImage.dylibNames, List.filterMap_cons, List.filterMap_nil,
        List.mem_singleton] at present
      subst present
      rcases isSome_logName_dylib.mp (Option.isSome_of_eq_some logged) tracing with
        ⟨same, again, printable⟩
      rw [nameFound, Option.some.injEq] at again
      rwa [again]
  | symtab => exact logsDylibs_of_quiet rfl
  | segment => exact logsDylibs_of_quiet rfl
  | other => exact logsDylibs_of_quiet rfl

theorem loadCommands_of_commandsAt {position : Nat} {commands : List MachCommand} {log : MDBLog}
    (stored : StoredAt image content base) (present : CommandsAt image position commands)
    (logs : LogsDylibs log commands) (state : LoadState) :
    ∃ loaded, loadCommands log content commands.length (base + position) state = some loaded ∧
      Loads image content base commands state loaded := by
  induction present generalizing state with
  | nil =>
      refine ⟨state, rfl, ?_, ⟨[], ?_, ?_⟩, ?_, ?_⟩
      · simp [MachImage.entryPoints]
      · simp
      · simp [MachImage.dylibNames]
      · intro _
        rfl
      · intro entries table
        simp [MachImage.symbolTable] at table
  | @cons position command rest cmdsize first cmdsizeAt _ ih =>
      rcases logsDylibs_cons.mp logs with ⟨logsFirst, logsRest⟩
      rcases loadCommand_of_commandAt stored first logsFirst state with ⟨middle, ran, adds⟩
      rcases ih logsRest middle with ⟨loaded, ranRest, addsRest⟩
      refine ⟨loaded, ?_, adds.cons addsRest⟩
      have size := stored.wordAt cmdsizeAt
      simp only [← Nat.add_assoc] at size ranRest
      simp only [List.length_cons, loadCommands_succ ran size]
      exact ranRest

theorem logsDylibs_of_loadCommands {position : Nat} {commands : List MachCommand} {log : MDBLog}
    {state loaded : LoadState} (stored : StoredAt image content base)
    (present : CommandsAt image position commands)
    (ran : loadCommands log content commands.length (base + position) state = some loaded) :
    LogsDylibs log commands := by
  induction present generalizing state with
  | nil => simp [LogsDylibs, MachImage.dylibNames]
  | @cons position command rest cmdsize first cmdsizeAt _ ih =>
      have size := stored.wordAt cmdsizeAt
      simp only [← Nat.add_assoc] at size
      simp only [List.length_cons, loadCommands, size, Option.bind_eq_bind, Option.bind_some,
        Option.bind_eq_some_iff] at ran
      rcases ran with ⟨middle, ranFirst, ranRest⟩
      rw [Nat.add_assoc] at ranRest
      exact logsDylibs_cons.mpr ⟨logsDylibs_of_loadCommand stored first ranFirst, ih ranRest⟩

end Commands

/-! ## The symbol table -/

section Table

open MDBMachFile

variable {image content : List Byte} {base : Nat}

/-- The symbol made for an entry of the table of an image that is stored at a position. -/
def SymbolEntry.symbol (base stringTable : Nat) (entry : SymbolEntry) : MDBSymbol :=
  ⟨.inBuffer (base + stringTable + entry.n_strx.toNat), entry.n_value.setWidth 64⟩

theorem loadSymbol_of_entryAt {position stringTable : Nat} {entry : SymbolEntry}
    (stored : StoredAt image content base) (present : EntryAt image position stringTable entry) :
    loadSymbol content (base + stringTable) (base + position) =
      some (if entry.defined then some (entry.symbol base stringTable) else none) := by
  have n_sect := stored.getElem? present.n_sect
  have n_value := stored.wordAt present.n_value
  simp only [← Nat.add_assoc] at n_sect n_value
  simp only [loadSymbol, n_sect, n_value, stored.wordAt present.n_strx, Option.bind_eq_bind,
    Option.bind_some, SymbolEntry.defined, SymbolEntry.symbol, pure]
  by_cases inSection : entry.n_sect > 0#8
  · by_cases named : entry.n_strx > 1#32 <;> simp [inSection, named]
  · simp [inSection]

theorem loadSymbolTable_of_entries {position stringTable : Nat} {entries : List SymbolEntry}
    (stored : StoredAt image content base)
    (table : ∀ i entry, entries[i]? = some entry →
      EntryAt image (position + sizeofNlist * i) stringTable entry) (symbols : List MDBSymbol) :
    loadSymbolTable content (base + stringTable) entries.length (base + position) symbols =
      some (symbols ++ (entries.filter (·.defined)).map (·.symbol base stringTable)) := by
  induction entries generalizing position symbols with
  | nil => simp [loadSymbolTable]
  | cons entry rest ih =>
      have first := loadSymbol_of_entryAt stored (table 0 entry List.getElem?_cons_zero)
      have restTable : ∀ i later, rest[i]? = some later →
          EntryAt image (position + sizeofNlist + sizeofNlist * i) stringTable later := by
        intro i later present
        have := table (i + 1) later (by simpa using present)
        rwa [Nat.mul_succ, Nat.add_comm (sizeofNlist * i), ← Nat.add_assoc] at this
      simp only [Nat.mul_zero, Nat.add_zero] at first
      simp only [List.length_cons, loadSymbolTable, first, Option.bind_eq_bind, Option.bind_some]
      simp only [Nat.add_assoc base, ih restTable]
      by_cases defined : entry.defined <;> simp [defined]

theorem characters_of_entries {position stringTable : Nat} {entries : List SymbolEntry}
    (stored : StoredAt image content base)
    (table : ∀ i entry, entries[i]? = some entry →
      EntryAt image (position + sizeofNlist * i) stringTable entry) :
    ((entries.filter (·.defined)).map (·.symbol base stringTable)).map
        (fun symbol => (symbol.name.characters content, symbol.address)) =
      (entries.filter (·.defined)).map fun entry =>
        (some entry.name, entry.n_value.setWidth 64) := by
  rw [List.map_map]
  apply List.map_congr_left
  intro entry entryMem
  simp only [List.mem_filter] at entryMem
  rcases List.mem_iff_getElem?.mp entryMem.1 with ⟨i, present⟩
  have name := stored.stringAt ((table i entry present).name entryMem.2)
  simp only [← Nat.add_assoc] at name
  simp [SymbolEntry.symbol, SymbolName.characters, name]

end Table

/-! ## Files -/

namespace MDBMachFile

variable {image content : List Byte} {base : Nat}

theorem findX86Image_of_first {index start count : Nat} {cputype offset : BitVec 32}
    (others : ∀ i < index, ∃ other, wordAt content (start + sizeofFatArch * i) = some other ∧
      swapEndian other ≠ CPU_TYPE_X86)
    (cputypeAt : wordAt content (start + sizeofFatArch * index) = some cputype)
    (x86 : swapEndian cputype = CPU_TYPE_X86)
    (offsetAt : wordAt content (start + sizeofFatArch * index + 8) = some offset)
    (counted : index < count) :
    findX86Image content count start = some (some (swapEndian offset).toNat) := by
  induction index generalizing start count with
  | zero =>
      rcases count with _ | count
      · omega
      · simp only [Nat.mul_zero, Nat.add_zero] at cputypeAt offsetAt
        simp [findX86Image, cputypeAt, x86, offsetAt]
  | succ index ih =>
      rcases count with _ | count
      · omega
      · rcases others 0 (by omega) with ⟨other, otherAt, different⟩
        simp only [Nat.mul_zero, Nat.add_zero] at otherAt
        have next : ∀ i, start + sizeofFatArch * (i + 1) =
            start + sizeofFatArch + sizeofFatArch * i := by
          intro i
          rw [Nat.mul_succ]
          omega
        simp only [findX86Image, otherAt, different, Option.bind_eq_bind, Option.bind_some,
          if_false]
        apply ih
        · intro i bound
          rw [← next]
          apply others (i + 1)
          omega
        · rw [← next]
          exact cputypeAt
        · rw [← next]
          exact offsetAt
        · omega

theorem findImage_thin (magic : wordAt image 0 = some MH_MAGIC) :
    findImage image = some (some 0) := by
  have notFat : MH_MAGIC ≠ FAT_CIGAM := by decide
  simp [findImage, magic, notFat]

/-- The reader finds the image of a file, thin or fat. -/
theorem findImage_of_fileOf (magic : wordAt image 0 = some MH_MAGIC)
    (fileOf : FileOf image content) :
    ∃ base, findImage content = some (some base) ∧ StoredAt image content base := by
  cases fileOf with
  | thin => exact ⟨0, findImage_thin magic, StoredAt.refl image⟩
  | @fat _ index base entry stored =>
      rcases entry.nfat_arch with ⟨nfat_arch, countAt, counted⟩
      rcases entry.cputype with ⟨cputype, cputypeAt, x86⟩
      rcases entry.offset with ⟨offset, offsetAt, rfl⟩
      have found := findX86Image_of_first entry.others cputypeAt x86 offsetAt counted
      exact ⟨_, by simp [findImage, entry.magic, countAt, found], stored⟩

/-- Behind the header of an image the reader goes through the load commands. -/
theorem parse_of_header {log : MDBLog} {count : Nat} {fileName : List Byte}
    (logged : logName log symbolsMessage (some fileName) = some ())
    (header : MachHeader image count) (found : findImage content = some (some base))
    (stored : StoredAt image content base) :
    parse log (some content) (create fileName) =
      (loadCommands log content count (base + sizeofMachHeader) ⟨none, [], []⟩).bind fun loaded =>
        match loaded.symtabCommand with
        | none => some (false, ⟨fileName, content, loaded.symbols, loaded.dylibs⟩)
        | some symtabCommand =>
            parseTable ⟨fileName, content, loaded.symbols, loaded.dylibs⟩ base symtabCommand := by
  rcases header.filetype with ⟨filetype, filetypeAt, accepted⟩
  rcases header.ncmds with ⟨ncmds, ncmdsAt, rfl⟩
  have magicAt : wordAt content base = some MH_MAGIC := stored.wordAt header.magic
  have read : parse log (some content) (create fileName) =
      parseCommands log ⟨fileName, content, [], []⟩ base := by
    simp only [parse, create, logged, found, parseImage, magicAt, stored.wordAt filetypeAt,
      if_neg (not_not_intro accepted), Option.bind_eq_bind, Option.bind_some, ne_eq,
      not_true_eq_false, if_false]
  apply read.trans
  change (wordAt content (base + 16)).bind _ = _
  rw [stored.wordAt ncmdsAt]
  rfl

theorem parse_of_loadCommands {log : MDBLog} {count : Nat} {loaded : LoadState}
    {fileName : List Byte} (logged : logName log symbolsMessage (some fileName) = some ())
    (header : MachHeader image count) (found : findImage content = some (some base))
    (stored : StoredAt image content base)
    (ran : loadCommands log content count (base + sizeofMachHeader) ⟨none, [], []⟩ =
      some loaded) :
    parse log (some content) (create fileName) =
      match loaded.symtabCommand with
      | none => some (false, ⟨fileName, content, loaded.symbols, loaded.dylibs⟩)
      | some symtabCommand =>
          parseTable ⟨fileName, content, loaded.symbols, loaded.dylibs⟩ base symtabCommand := by
  rw [parse_of_header logged header found stored, ran, Option.bind_some]

/-- From a symbol table the reader adds the defined symbols. -/
theorem parseTable_of_symtab {position : Nat} {entries : List SymbolEntry} {file : MDBMachFile}
    (stored : StoredAt image file.buffer base)
    (command : CommandAt image position (.symtab entries)) :
    ∃ table, parseTable file base (base + position) =
        some (true, { file with symbols := file.symbols ++ table }) ∧
      table.map (fun symbol => (symbol.name.characters file.buffer, symbol.address)) =
        (entries.filter (·.defined)).map (fun entry =>
          (some entry.name, entry.n_value.setWidth 64)) ∧
      ∀ symbol ∈ table, symbol.name ≠ .ENTRY_POINT_SYMBOL_NAME := by
  cases command with
  | @symtab _ symoff nsyms stroff cmd symoffAt nsymsAt stroffAt entriesCounted entriesAt =>
      have tableRan := loadSymbolTable_of_entries stored entriesAt file.symbols
      have symoffFound := stored.wordAt symoffAt
      have nsymsFound := stored.wordAt nsymsAt
      have stroffFound := stored.wordAt stroffAt
      simp only [← Nat.add_assoc] at symoffFound nsymsFound stroffFound
      simp only [← entriesCounted] at tableRan
      refine ⟨(entries.filter (·.defined)).map (·.symbol base stroff.toNat), ?_,
        characters_of_entries stored entriesAt, ?_⟩
      · simp only [parseTable, symoffFound, nsymsFound, stroffFound, tableRan,
          Option.bind_eq_bind, Option.bind_some, pure]
      · intro symbol present
        rcases List.mem_map.mp present with ⟨entry, _, rfl⟩
        simp [SymbolEntry.symbol]

/-- What the reader recovers does not depend on where it found the image. -/
structure Recovers (file : MDBMachFile) (machImage : MachImage) : Prop where
  dylibs : file.dylibNames = (MachImage.dylibNames machImage.commands).map some
  /-- All symbols, the entry points first. -/
  symbols : file.namedSymbols file.symbols =
    (MachImage.entryPoints machImage.commands).map
        (fun address => (some entryPointName, address)) ++
      machImage.definedSymbols.map fun symbol => (some symbol.1, symbol.2)
  tableSymbols : file.namedSymbols file.tableSymbols =
    machImage.definedSymbols.map fun symbol => (some symbol.1, symbol.2)

/-- If the reader's messages are traced, the names that they end in can be printed. -/
structure LogsNames (log : MDBLog) (fileName : List Byte) (commands : List MachCommand) :
    Prop where
  fileName : LogsName log symbolsMessage fileName
  dylibs : LogsDylibs log commands

theorem logName_of_logsName {log : MDBLog} {fileName : List Byte} (terminated : 0#8 ∉ fileName)
    (logs : LogsName log symbolsMessage fileName) :
    logName log symbolsMessage (some fileName) = some () := by
  have comesOut := (isSome_logName_fileName terminated).mpr logs
  rcases Option.isSome_iff_exists.mp comesOut with ⟨⟨⟩, logged⟩
  exact logged

theorem parse_of_fileOf {machImage : MachImage} {log : MDBLog} {fileName : List Byte}
    (logged : logName log symbolsMessage (some fileName) = some ())
    (logs : LogsDylibs log machImage.commands) (wellFormed : WellFormed image machImage)
    (fileOf : FileOf image content) :
    ∃ file, parse log (some content) (create fileName) = some (true, file) ∧
      file.Recovers machImage := by
  rcases findImage_of_fileOf wellFormed.magic fileOf with ⟨base, found, stored⟩
  rcases loadCommands_of_commandsAt stored wellFormed.commands logs ⟨none, [], []⟩ with
    ⟨loaded, ran, loads⟩
  rcases Option.isSome_iff_exists.mp wellFormed.symtab with ⟨entries, lastTable⟩
  rcases loads.found entries lastTable with ⟨position, symtabCommand, command⟩
  have parsed := parse_of_loadCommands logged wellFormed.header found stored ran
  rcases @parseTable_of_symtab image base position entries
    ⟨fileName, content, loaded.symbols, loaded.dylibs⟩ stored command with
    ⟨table, tableParsed, resolved, named⟩
  simp only [symtabCommand, tableParsed] at parsed
  refine ⟨_, parsed, ?_⟩
  have entryPoints := loads.symbols
  have definedTable : (entries.filter (·.defined)).map (fun entry =>
      ((some entry.name : Option (List Byte)), entry.n_value.setWidth 64)) =
        machImage.definedSymbols.map fun symbol => (some symbol.1, symbol.2) := by
    simp [MachImage.definedSymbols, lastTable]
  rcases loads.dylibs with ⟨dylibs, appended, names⟩
  simp only [List.nil_append] at entryPoints appended
  constructor
  · simp only [dylibNames, appended, names]
  · simp only [namedSymbols, List.map_append, resolved, definedTable, entryPoints, List.map_map]
    rfl
  · have onlyTable : (loaded.symbols ++ table).filter (·.name ≠ .ENTRY_POINT_SYMBOL_NAME) =
        table := by
      have dropped : loaded.symbols.filter (·.name ≠ .ENTRY_POINT_SYMBOL_NAME) = [] := by
        simp [entryPoints, entryPoint]
      have kept : table.filter (·.name ≠ .ENTRY_POINT_SYMBOL_NAME) = table := by
        simpa using named
      rw [List.filter_append, dropped, kept, List.nil_append]
    simp only [namedSymbols, tableSymbols, onlyTable, resolved, definedTable]

theorem logName_of_parse {log : MDBLog} {fileName : List Byte} {answer : Bool × MDBMachFile}
    (ran : parse log (some content) (create fileName) = some answer) :
    logName log symbolsMessage (some fileName) = some () := by
  simp only [parse, Option.bind_eq_bind, Option.bind_eq_some_iff] at ran
  rcases ran with ⟨⟨⟩, logged, -⟩
  exact logged

theorem logsName_of_parse {log : MDBLog} {fileName : List Byte} {answer : Bool × MDBMachFile}
    (terminated : 0#8 ∉ fileName)
    (ran : parse log (some content) (create fileName) = some answer) :
    LogsName log symbolsMessage fileName :=
  (isSome_logName_fileName terminated).mp (Option.isSome_of_eq_some (logName_of_parse ran))

/-- A file of an image that is read to its end has the names in it logged. -/
theorem logsDylibs_of_parse {commands : List MachCommand} {log : MDBLog} {fileName : List Byte}
    {answer : Bool × MDBMachFile} (header : MachHeader image commands.length)
    (present : CommandsAt image sizeofMachHeader commands) (fileOf : FileOf image content)
    (ran : parse log (some content) (create fileName) = some answer) :
    LogsDylibs log commands := by
  rcases findImage_of_fileOf header.magic fileOf with ⟨base, found, stored⟩
  rw [parse_of_header (logName_of_parse ran) header found stored, Option.bind_eq_some_iff] at ran
  rcases ran with ⟨loaded, ranCommands, -⟩
  exact logsDylibs_of_loadCommands stored present ranCommands

/-- Whatever the reader makes of a well-formed image is what the image says. -/
theorem recovers_of_parse {machImage : MachImage} {log : MDBLog} {fileName : List Byte}
    {accepted : Bool} {file : MDBMachFile} (wellFormed : WellFormed image machImage)
    (fileOf : FileOf image content)
    (ran : parse log (some content) (create fileName) = some (accepted, file)) :
    file.Recovers machImage := by
  have logs := logsDylibs_of_parse wellFormed.header wellFormed.commands fileOf ran
  rcases parse_of_fileOf (logName_of_parse ran) logs wellFormed fileOf with
    ⟨again, ranAgain, recovers⟩
  simp only [ran, Option.some.injEq, Prod.mk.injEq] at ranAgain
  rwa [ranAgain.2]

/-- The reader accepts a file and recovers what the image says, the same from every file of it. -/
def RecoversImage (log : MDBLog) (fileName image content : List Byte) (machImage : MachImage) :
    Prop :=
  ∃ file, parse log (some content) (create fileName) = some (true, file) ∧
    file.dylibNames = (MachImage.dylibNames machImage.commands).map some ∧
    file.namedSymbols file.tableSymbols =
      machImage.definedSymbols.map (fun symbol => (some symbol.1, symbol.2)) ∧
    ∀ other, FileOf image other →
      ∃ otherFile, parse log (some other) (create fileName) = some (true, otherFile) ∧
        otherFile.dylibNames = file.dylibNames ∧
        otherFile.namedSymbols otherFile.symbols = file.namedSymbols file.symbols

/--
The reader recovers a well-formed image from its files exactly if the names that it logs on
the way can be printed: each of them becomes part of a format.
-/
theorem recoversImage_iff {machImage : MachImage} (log : MDBLog) {fileName : List Byte}
    (terminated : 0#8 ∉ fileName) (wellFormed : WellFormed image machImage)
    (fileOf : FileOf image content) :
    RecoversImage log fileName image content machImage ↔
      LogsNames log fileName machImage.commands := by
  constructor
  · rintro ⟨file, ran, -⟩
    exact ⟨logsName_of_parse terminated ran,
      logsDylibs_of_parse wellFormed.header wellFormed.commands fileOf ran⟩
  · intro logs
    have logged := logName_of_logsName terminated logs.fileName
    rcases parse_of_fileOf logged logs.dylibs wellFormed fileOf with ⟨file, ran, recovers⟩
    refine ⟨file, ran, recovers.dylibs, recovers.tableSymbols, ?_⟩
    intro other otherOf
    rcases parse_of_fileOf logged logs.dylibs wellFormed otherOf with
      ⟨otherFile, otherRan, same⟩
    exact ⟨otherFile, otherRan, same.dylibs.trans recovers.dylibs.symm,
      same.symbols.trans recovers.symbols.symm⟩

/--
An executable that loads one library, with a name of four characters, and defines one of the
two symbols of its table.
-/
def sampleImage (dylib : List Byte) : List Byte :=
  [0xfeedface, 7, 3, 2, 2, 56, 0].flatMap (LittleEndian.toBytes 4) ++
  -- `LC_LOAD_DYLIB`
  [0xc, 32, 24, 0, 0, 0].flatMap (LittleEndian.toBytes 4) ++ dylib ++
  [0].flatMap (LittleEndian.toBytes 4) ++
  -- `LC_SYMTAB`
  [0x2, 24, 84, 2, 108, 5].flatMap (LittleEndian.toBytes 4) ++
  [2, 0x010f, 0x1000, 1, 0x0001, 0].flatMap (LittleEndian.toBytes 4) ++
  [0x20, 0, 0x5f, 0x66, 0].map (BitVec.ofNat 8)

/-- A fat file with a `sampleImage` behind an image for another processor. -/
def sampleFatFile (dylib : List Byte) : List Byte :=
  [0xbebafeca, 0x02000000, 0x07000001, 0, 0, 0, 0, 0x07000000, 0, 0x30000000, 0, 0].flatMap
    (LittleEndian.toBytes 4) ++ sampleImage dylib

/-- `libm` -/
def sampleDylib : List Byte := [0x6c, 0x69, 0x62, 0x6d].map (BitVec.ofNat 8)

/-- `%s%s` -/
def formatDylib : List Byte := [0x25, 0x73, 0x25, 0x73].map (BitVec.ofNat 8)

/-- The characters of the symbol's name. -/
def sampleSymbol : List Byte := [0x5f, 0x66].map (BitVec.ofNat 8)

def sampleMachImage (dylib : List Byte) : MachImage where
  filetype := MH_EXECUTE
  commands := [.loadDylib dylib,
    .symtab [⟨2#32, 1#8, 0x1000#32, sampleSymbol⟩, ⟨1#32, 0#8, 0#32, []⟩]]

theorem symtabAt_sample {dylib : List Byte} (named : dylib = sampleDylib ∨ dylib = formatDylib) :
    CommandAt (sampleImage dylib) 60
      (.symtab [⟨2#32, 1#8, 0x1000#32, sampleSymbol⟩, ⟨1#32, 0#8, 0#32, []⟩]) := by
  rcases named with rfl | rfl
  all_goals
    apply CommandAt.symtab rfl rfl rfl rfl rfl
    intro i entry present
    match i, present with
    | 0, rfl => exact ⟨rfl, rfl, rfl, fun _ => rfl⟩
    | 1, rfl => exact ⟨rfl, rfl, rfl, fun undefined => by cases undefined⟩

theorem wellFormed_sample {dylib : List Byte}
    (named : dylib = sampleDylib ∨ dylib = formatDylib) :
    WellFormed (sampleImage dylib) (sampleMachImage dylib) := by
  have symtab := symtabAt_sample named
  rcases named with rfl | rfl
  · exact ⟨rfl, rfl, Or.inl rfl, ⟨2#32, rfl, rfl⟩,
      .cons (.loadDylib rfl rfl rfl) rfl (.cons symtab rfl .nil), rfl⟩
  · exact ⟨rfl, rfl, Or.inl rfl, ⟨2#32, rfl, rfl⟩,
      .cons (.loadDylib rfl rfl rfl) rfl (.cons symtab rfl .nil), rfl⟩

set_option maxRecDepth 4000 in
theorem fatEntry_sample : FatEntry (sampleFatFile sampleDylib) 1 48 := by
  constructor
  · rfl
  · exact ⟨_, rfl, Nat.one_lt_two⟩
  · intro i bound
    simp only [Nat.lt_one_iff] at bound
    subst bound
    exact ⟨_, rfl, by decide⟩
  · exact ⟨_, rfl, rfl⟩
  · exact ⟨_, rfl, rfl⟩

theorem fileOf_sample : FileOf (sampleImage sampleDylib) (sampleFatFile sampleDylib) := by
  apply FileOf.fat fatEntry_sample
  have behind : (sampleFatFile sampleDylib).drop 48 = sampleImage sampleDylib :=
    List.drop_left' rfl
  rw [StoredAt, behind]

theorem recoversImage_iff_sample :
    RecoversImage (.create none) (ascii "a.out") (sampleImage sampleDylib)
        (sampleFatFile sampleDylib) (sampleMachImage sampleDylib) ↔
      LogsNames (.create none) (ascii "a.out") (sampleMachImage sampleDylib).commands :=
  recoversImage_iff (.create none) (by decide) (wellFormed_sample (Or.inl rfl)) fileOf_sample

/-- The name of a library is taken for a format, whose arguments nobody has passed. -/
theorem not_recoversImage_percent :
    WellFormed (sampleImage formatDylib) (sampleMachImage formatDylib) ∧
      FileOf (sampleImage formatDylib) (sampleImage formatDylib) ∧
      ¬RecoversImage (.create none) (ascii "a.out") (sampleImage formatDylib)
        (sampleImage formatDylib) (sampleMachImage formatDylib) := by
  have wellFormed := wellFormed_sample (Or.inr (rfl : formatDylib = formatDylib))
  refine ⟨wellFormed, .thin, ?_⟩
  rintro ⟨file, ran, -⟩
  have logs := logsDylibs_of_parse wellFormed.header wellFormed.commands .thin ran
  have printable := logs formatDylib (by decide) (by decide)
  have pairs := printable.paired
  revert pairs
  decide

end MDBMachFile

end RustDbg
