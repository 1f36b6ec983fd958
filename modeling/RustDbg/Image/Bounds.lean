import RustDbg.Image.MachFile

/-!
# When the reader stays inside its input

The reader checks no offset of the file it reads. `FileInside` says of the bytes of a
file where its headers, load commands, tables and strings lie, and of the names that are
logged that the log can print them, for which it takes them as formats and copies them
into an array; the reader inspects no byte outside of the file and keeps no name that runs
out of it exactly when that is so. `IdentityInside` says of a load command of an image in
memory what `findImageName` reads of it.
-/

namespace RustDbg

open Buffer

/-- A C string that starts at a position ends in the buffer. -/
def StringInside (buffer : List Byte) (position : Nat) : Prop :=
  ∃ i, buffer[position + i]? = some 0#8

/-- Some byte of the buffer tells the C string at a position from a string or ends it. -/
def ComparisonInside (buffer : List Byte) (position : Nat) (expected : List Byte) : Prop :=
  ∃ i ≤ expected.length, ∃ byte, buffer[position + i]? = some byte ∧ expected[i]? ≠ some byte

/-- Where the load commands are, each as far behind its predecessor as that one's size says. -/
def commandPositions (buffer : List Byte) : Nat → Nat → List Nat
  | 0, _ => []
  | count + 1, first =>
      first :: commandPositions buffer count (first + (word buffer (first + 4)).toNat)

/-! ## Layout conditions -/

/-- The first section header of a segment, as far as it takes to know whether it is the text. -/
structure SectionInside (buffer : List Byte) (sectCurr : Nat) : Prop where
  segname : ComparisonInside buffer (sectCurr + 16) textSegment
  sectname : equalsAt buffer (sectCurr + 16) textSegment = some true →
    ComparisonInside buffer sectCurr textSection
  addr : equalsAt buffer (sectCurr + 16) textSegment = some true →
    equalsAt buffer sectCurr textSection = some true → sectCurr + 36 ≤ buffer.length

/-- The position of the name of a library or of an image, given the position of its command. -/
def namePosition (buffer : List Byte) (position : Nat) : Nat :=
  position + (word buffer (position + 8)).toNat

structure CommandInside (log : MDBLog) (buffer : List Byte) (position : Nat) : Prop where
  header : position + 8 ≤ buffer.length
  firstSection : word buffer position = LC_SEGMENT →
    SectionInside buffer (position + sizeofSegmentCommand)
  nameOffset : word buffer position = LC_LOAD_DYLIB → position + 12 ≤ buffer.length
  logged : word buffer position = LC_LOAD_DYLIB → log.isTracing MDBLog.SYM = true →
    ∃ name, stringAt buffer (namePosition buffer position) = some name ∧
      MDBLog.Printable (MDBMachFile.dylibMessage ++ name)

/-- A symbol table entry, with its name if it stands for a defined symbol. -/
structure EntryInside (buffer : List Byte) (stringTable position : Nat) : Prop where
  n_sect : position + 6 ≤ buffer.length
  n_value : buffer[position + 5]? ≠ some 0#8 → word buffer position > 1#32 →
    position + 12 ≤ buffer.length
  name : buffer[position + 5]? ≠ some 0#8 → word buffer position > 1#32 →
    StringInside buffer (stringTable + (word buffer position).toNat)

/-- A symbol table command of an image with its table and the names in it. -/
structure TableInside (buffer : List Byte) (image symtabCommand : Nat) : Prop where
  command : symtabCommand + 20 ≤ buffer.length
  entries : ∀ i < (word buffer (symtabCommand + 12)).toNat,
    EntryInside buffer (image + (word buffer (symtabCommand + 16)).toNat)
      (image + (word buffer (symtabCommand + 8)).toNat + sizeofNlist * i)

/-- The image has the magic number and the type that the reader accepts. -/
def Readable (buffer : List Byte) (image : Nat) : Prop :=
  word buffer image = MH_MAGIC ∧ (word buffer (image + 12) = MH_EXECUTE ∨
    word buffer (image + 12) = MH_DYLIB ∨ word buffer (image + 12) = MH_DYLINKER)

/-- The positions of the load commands of an image. -/
def imageCommands (buffer : List Byte) (image : Nat) : List Nat :=
  commandPositions buffer (word buffer (image + 16)).toNat (image + sizeofMachHeader)

def lastSymtab (buffer : List Byte) (positions : List Nat) : Option Nat :=
  (positions.filter (word buffer · = LC_SYMTAB)).getLast?

structure ImageInside (log : MDBLog) (buffer : List Byte) (image : Nat) : Prop where
  magic : image + 4 ≤ buffer.length
  filetype : word buffer image = MH_MAGIC → image + 16 ≤ buffer.length
  ncmds : Readable buffer image → image + 20 ≤ buffer.length
  commands : Readable buffer image →
    ∀ position ∈ imageCommands buffer image, CommandInside log buffer position
  symtab : Readable buffer image → ∀ symtabCommand,
    lastSymtab buffer (imageCommands buffer image) = some symtabCommand →
      TableInside buffer image symtabCommand
  /-- Without a symbol table the file is rejected, whatever its names are. -/
  names : Readable buffer image → (lastSymtab buffer (imageCommands buffer image)).isSome →
    ∀ position ∈ imageCommands buffer image, word buffer position = LC_LOAD_DYLIB →
      StringInside buffer (namePosition buffer position)

/-- The entry of a fat file at a position is for x86. -/
def ForX86 (content : List Byte) (position : Nat) : Prop :=
  swapEndian (word content position) = CPU_TYPE_X86

/-- The position the entry at a position points at. -/
def pointedAt (content : List Byte) (position : Nat) : Nat :=
  (swapEndian (word content (position + 8))).toNat

/-- An entry of a fat file lies inside and, if it is for x86, so does the image it points at. -/
structure FatArchInside (log : MDBLog) (content : List Byte) (position : Nat) : Prop where
  cputype : position + 4 ≤ content.length
  offset : ForX86 content position → position + 12 ≤ content.length
  image : ForX86 content position → ImageInside log content (pointedAt content position)

/-- The entries of a fat file lie inside up to the first one for x86. -/
structure FatInside (log : MDBLog) (content : List Byte) : Prop where
  header : 8 ≤ content.length
  entries : ∀ index < (swapEndian (word content 4)).toNat,
    (∀ i < index, ¬ForX86 content (sizeofFatHeader + sizeofFatArch * i)) →
      FatArchInside log content (sizeofFatHeader + sizeofFatArch * index)

structure FileInside (log : MDBLog) (fileName content : List Byte) : Prop where
  logged : MDBMachFile.LogsName log MDBMachFile.symbolsMessage fileName
  magic : 4 ≤ content.length
  fat : word content 0 = FAT_CIGAM → FatInside log content
  thin : word content 0 ≠ FAT_CIGAM → ImageInside log content 0

/-- The load command identifies the image and so gives it its name. -/
def Identifies (image : List Byte) (position : Nat) : Prop :=
  word image position = LC_ID_DYLIB ∨ word image position = LC_ID_DYLINKER

structure IdentityInside (image : List Byte) (position : Nat) : Prop where
  cmd : position + 4 ≤ image.length
  name : Identifies image position → position + 12 ≤ image.length
  cmdsize : ¬Identifies image position → position + 8 ≤ image.length

/-- The load commands of an image in memory lie inside up to the first that identifies it. -/
def CommandsIdentify (image : List Byte) (positions : List Nat) : Prop :=
  ∀ before position after, positions = before ++ position :: after →
    (∀ earlier ∈ before, ¬Identifies image earlier) → IdentityInside image position

/-! ## The loop over the load commands -/

namespace MDBMachFile

variable {log : MDBLog} {buffer : List Byte} {position : Nat} {state : LoadState}

theorem comparisonInside_iff {expected : List Byte} :
    ComparisonInside buffer position expected ↔ (equalsAt buffer position expected).isSome :=
  isSome_equalsAt.symm

/-- The text section is found and its address is read. -/
theorem isSome_textSection {found : BitVec 32 → LoadState} :
    ((isTextSection buffer position).bind fun text =>
      if text = true then
        (wordAt buffer (position + sizeofSegmentCommand + 32)).bind fun addr => some (found addr)
      else some state).isSome ↔ SectionInside buffer (position + sizeofSegmentCommand) := by
  have split : SectionInside buffer (position + sizeofSegmentCommand) ↔
      (equalsAt buffer (position + sizeofSegmentCommand + 16) textSegment).isSome ∧
      (equalsAt buffer (position + sizeofSegmentCommand + 16) textSegment = some true →
        (equalsAt buffer (position + sizeofSegmentCommand) textSection).isSome ∧
        (equalsAt buffer (position + sizeofSegmentCommand) textSection = some true →
          position + sizeofSegmentCommand + 36 ≤ buffer.length)) := by
    simp only [← comparisonInside_iff]
    constructor
    · intro inside
      exact ⟨inside.segname, fun text => ⟨inside.sectname text, inside.addr text⟩⟩
    · rintro ⟨segname, rest⟩
      exact ⟨segname, fun text => (rest text).1, fun text => (rest text).2⟩
  rw [split]
  simp only [isTextSection]
  rcases equalsAt buffer (position + sizeofSegmentCommand + 16) textSegment with _ | _ | _
  · simp
  · simp
  · rcases equalsAt buffer (position + sizeofSegmentCommand) textSection with _ | _ | _
    · simp
    · simp
    · have readable : (wordAt buffer (position + sizeofSegmentCommand + 32)).isSome ↔
          position + sizeofSegmentCommand + 36 ≤ buffer.length := isSome_wordAt
      rw [← readable]
      cases wordAt buffer (position + sizeofSegmentCommand + 32) <;> simp

theorem isSome_loadCommand (header : position + 8 ≤ buffer.length) :
    (loadCommand log buffer position state).isSome ↔
      CommandInside log buffer position := by
  have cmd : wordAt buffer position = some (word buffer position) := wordAt_of_le (by omega)
  simp only [loadCommand, cmd, Option.bind_eq_bind, Option.bind_some]
  by_cases symtab : word buffer position = LC_SYMTAB
  · have inside : CommandInside log buffer position := by
      constructor
      · exact header
      all_goals
        intro other
        simp only [symtab] at other
        cases other
    simp [symtab, inside]
  · by_cases segment : word buffer position = LC_SEGMENT
    · simp only [if_neg symtab, if_pos segment]
      refine isSome_textSection.trans ⟨fun inside => ?_, fun inside => inside.firstSection segment⟩
      constructor
      · exact header
      · intro _
        exact inside
      all_goals
        intro other
        simp only [segment] at other
        cases other
    · by_cases dylib : word buffer position = LC_LOAD_DYLIB
      · simp only [if_neg symtab, if_neg segment, if_pos dylib]
        by_cases nameOffset : position + 12 ≤ buffer.length
        · have offset : wordAt buffer (position + 8) = some (word buffer (position + 8)) :=
            wordAt_of_le nameOffset
          have logged : (logName log dylibMessage
              (stringAt buffer (namePosition buffer position))).isSome ↔
                CommandInside log buffer position := by
            rw [isSome_logName_dylib]
            constructor
            · intro name
              exact ⟨header, fun other => absurd other segment, fun _ => nameOffset,
                fun _ => name⟩
            · intro inside
              exact inside.logged dylib
          simp only [offset, ← logged]
          simp only [Option.bind_some, namePosition]
          cases logName log dylibMessage
            (stringAt buffer (position + (word buffer (position + 8)).toNat)) <;> rfl
        · have offset : wordAt buffer (position + 8) = none := by
            simp only [wordAt]
            rw [if_neg (by omega)]
          simp only [offset, Option.bind_none, Option.isSome_none, Bool.false_eq_true, false_iff]
          intro inside
          apply nameOffset
          exact inside.nameOffset dylib
      · have inside : CommandInside log buffer position :=
          ⟨header, fun other => absurd other segment, fun other => absurd other dylib,
            fun other => absurd other dylib⟩
        simp [symtab, segment, dylib, inside]

theorem isSome_loadCommands {count first : Nat} :
    (loadCommands log buffer count first state).isSome ↔
      ∀ position ∈ commandPositions buffer count first, CommandInside log buffer position := by
  induction count generalizing first state with
  | zero => simp [loadCommands, commandPositions]
  | succ count ih =>
      simp only [commandPositions, List.forall_mem_cons]
      by_cases header : first + 8 ≤ buffer.length
      · have cmdsize : wordAt buffer (first + 4) = some (word buffer (first + 4)) :=
          wordAt_of_le (by omega)
        rw [← isSome_loadCommand header]
        simp only [loadCommands, cmdsize, Option.bind_eq_bind, Option.bind_some]
        cases loaded : loadCommand log buffer first state with
        | none => simp
        | some next => simp [ih]
      · have cmdsize : wordAt buffer (first + 4) = none := by
          simp only [wordAt]
          rw [if_neg (by omega)]
        simp only [loadCommands, cmdsize, Option.bind_eq_bind, Option.bind_none,
          Option.bind_fun_none, Option.isSome_none, Bool.false_eq_true, false_iff]
        intro inside
        exact header inside.1.header

/-- What the loop over the load commands collects. -/
structure Collects (buffer : List Byte) (positions : List Nat) (state loaded : LoadState) :
    Prop where
  symtab : loaded.symtabCommand = (lastSymtab buffer positions).or state.symtabCommand
  dylibs : loaded.dylibs.map (·.fileName) = state.dylibs.map (·.fileName) ++
    (positions.filter (word buffer · = LC_LOAD_DYLIB)).map (namePosition buffer)
  symbols : ∀ symbol ∈ loaded.symbols, symbol ∈ state.symbols ∨
    symbol.name = .ENTRY_POINT_SYMBOL_NAME

theorem collects_nothing {loaded : LoadState} (notSymtab : word buffer position ≠ LC_SYMTAB)
    (notDylib : word buffer position ≠ LC_LOAD_DYLIB) (kept : some state = some loaded) :
    Collects buffer [position] state loaded := by
  rw [← Option.some.inj kept]
  constructor
  · simp [lastSymtab, notSymtab]
  · simp [notDylib]
  · intro symbol present
    exact Or.inl present

theorem collects_loadCommand {loaded : LoadState}
    (ran : loadCommand log buffer position state = some loaded) :
    Collects buffer [position] state loaded := by
  simp only [loadCommand, Option.bind_eq_bind, Option.bind_eq_some_iff] at ran
  rcases ran with ⟨cmd, cmdAt, ran⟩
  have cmdWord := word_of_wordAt cmdAt
  subst cmdWord
  split at ran
  · rename_i symtab
    have same := Option.some.inj ran
    subst same
    constructor
    · simp [lastSymtab, symtab]
    · simp [symtab, LC_SYMTAB, LC_LOAD_DYLIB]
    · intro symbol present
      exact Or.inl present
  · rename_i notSymtab
    split at ran
    · rename_i segment
      have notDylib : word buffer position ≠ LC_LOAD_DYLIB := by
        rw [segment]
        decide
      simp only [Option.bind_eq_some_iff] at ran
      rcases ran with ⟨text, _, ran⟩
      split at ran
      · simp only [Option.bind_eq_some_iff] at ran
        rcases ran with ⟨addr, _, ran⟩
        have same := Option.some.inj ran
        subst same
        constructor
        · simp [lastSymtab, notSymtab]
        · simp [notDylib]
        · intro symbol present
          rcases List.mem_append.mp present with earlier | fresh
          · exact Or.inl earlier
          · right
            simp only [List.mem_singleton] at fresh
            rw [fresh]
      · exact collects_nothing notSymtab notDylib ran
    · split at ran
      · rename_i dylib
        simp only [Option.bind_eq_some_iff] at ran
        rcases ran with ⟨offset, offsetAt, _, _, ran⟩
        have same := Option.some.inj ran
        subst same
        constructor
        · simp [lastSymtab, notSymtab]
        · simp [dylib, namePosition, word_of_wordAt offsetAt]
        · intro symbol present
          exact Or.inl present
      · rename_i notDylib
        exact collects_nothing notSymtab notDylib ran

theorem Collects.cons {rest : List Nat} {middle loaded : LoadState}
    (first : Collects buffer [position] state middle)
    (others : Collects buffer rest middle loaded) :
    Collects buffer (position :: rest) state loaded := by
  rw [← List.singleton_append]
  constructor
  · rw [others.symtab, first.symtab, lastSymtab, lastSymtab, lastSymtab, List.filter_append,
      List.getLast?_append, Option.or_assoc]
  · simp only [others.dylibs, first.dylibs, List.filter_append, List.map_append, List.append_assoc]
  · intro symbol present
    rcases others.symbols symbol present with earlier | entryPoint
    · exact first.symbols symbol earlier
    · exact Or.inr entryPoint

theorem collects_loadCommands {count first : Nat} {loaded : LoadState}
    (ran : loadCommands log buffer count first state = some loaded) :
    Collects buffer (commandPositions buffer count first) state loaded := by
  induction count generalizing first state with
  | zero =>
      simp only [loadCommands, Option.some.injEq] at ran
      subst ran
      constructor
      · simp [lastSymtab, commandPositions]
      · simp [commandPositions]
      · intro symbol present
        exact Or.inl present
  | succ count ih =>
      simp only [loadCommands, Option.bind_eq_bind, Option.bind_eq_some_iff] at ran
      rcases ran with ⟨next, ranFirst, cmdsize, cmdsizeAt, ranRest⟩
      simp only [← word_of_wordAt cmdsizeAt] at ranRest
      apply (collects_loadCommand ranFirst).cons
      exact ih ranRest

/-! ## The loop over the symbol table -/

/-- The strings that names point to end in the buffer. -/
def NamesInside (buffer : List Byte) (symbols : List MDBSymbol) : Prop :=
  ∀ symbol ∈ symbols, ∀ position, symbol.name = .inBuffer position → StringInside buffer position

theorem namesInside_append {symbols added : List MDBSymbol} :
    NamesInside buffer (symbols ++ added) ↔
      NamesInside buffer symbols ∧ NamesInside buffer added := by
  simp only [NamesInside, List.mem_append, or_imp, forall_and]

theorem yields_loadSymbol {stringTable : Nat} :
    Yields (loadSymbol buffer stringTable position)
        (fun symbol => NamesInside buffer symbol.toList) ↔
      EntryInside buffer stringTable position := by
  simp only [loadSymbol, Option.bind_eq_bind, yields_bind]
  cases found : buffer[position + 5]? with
  | none =>
      have outside : buffer.length ≤ position + 5 := List.getElem?_eq_none_iff.mp found
      simp only [yields_none, false_iff]
      intro inside
      have := inside.n_sect
      omega
  | some n_sect =>
      have bound : position + 5 < buffer.length := (List.getElem?_eq_some_iff.mp found).1
      have n_strx : wordAt buffer position = some (word buffer position) := wordAt_of_le (by omega)
      rw [yields_some]
      by_cases inSection : n_sect > 0#8
      · have present : buffer[position + 5]? ≠ some 0#8 := by
          rw [found]
          rintro ⟨⟩
          apply absurd inSection
          exact BitVec.lt_irrefl _
        simp only [inSection, if_true, n_strx, yields_bind, yields_some]
        by_cases named : word buffer position > 1#32
        · simp only [named, if_true, yields_bind, yields_wordAt, pure, yields_some]
          constructor
          · rintro ⟨n_value, names⟩
            exact ⟨bound, fun _ _ => n_value, fun _ _ => names _ (List.mem_singleton_self _) _ rfl⟩
          · intro inside
            refine ⟨inside.n_value present named, ?_⟩
            intro symbol symbolMem place name
            simp only [Option.toList_some, List.mem_singleton] at symbolMem
            subst symbolMem
            cases name
            exact inside.name present named
        · simp only [named, if_false, pure, yields_some]
          constructor
          · intro _
            exact ⟨bound, fun _ other => absurd other named, fun _ other => absurd other named⟩
          · intro _ symbol none
            simp at none
      · have absent : buffer[position + 5]? = some 0#8 := by
          rw [found]
          congr 1
          bv_omega
        simp only [inSection, if_false, pure, yields_some]
        constructor
        · intro _
          exact ⟨bound, fun other => absurd absent other, fun other => absurd absent other⟩
        · intro _ symbol none
          simp at none

theorem yields_loadSymbolTable {stringTable count curr : Nat} {symbols : List MDBSymbol} :
    Yields (loadSymbolTable buffer stringTable count curr symbols) (NamesInside buffer) ↔
      NamesInside buffer symbols ∧
        ∀ i < count, EntryInside buffer stringTable (curr + sizeofNlist * i) := by
  induction count generalizing curr symbols with
  | zero => simp [loadSymbolTable]
  | succ count ih =>
      have next : ∀ i, curr + sizeofNlist * (i + 1) = curr + sizeofNlist + sizeofNlist * i := by
        intro i
        rw [Nat.mul_succ]
        omega
      rw [Nat.forall_lt_succ_left]
      simp only [loadSymbolTable, Option.bind_eq_bind, yields_bind, ih, namesInside_append, next,
        Nat.mul_zero, Nat.add_zero]
      simp only [← yields_loadSymbol, yields_and_right, yields_and_left, and_assoc]

/-! ## The image -/

/-- If the reader accepts, every name it keeps ends in the buffer. -/
def KeepsInside (buffer : List Byte) (answer : Bool × MDBMachFile) : Prop :=
  answer.1 = true → NamesInside buffer answer.2.symbols ∧
    ∀ dylib ∈ answer.2.dylibs, StringInside buffer dylib.fileName

theorem Collects.stringInside_iff {positions : List Nat} {loaded : LoadState}
    (collects : Collects buffer positions ⟨none, [], []⟩ loaded) :
    (∀ dylib ∈ loaded.dylibs, StringInside buffer dylib.fileName) ↔
      ∀ position ∈ positions, word buffer position = LC_LOAD_DYLIB →
        StringInside buffer (namePosition buffer position) := by
  have names : (∀ name ∈ loaded.dylibs.map (·.fileName), StringInside buffer name) ↔
      ∀ name ∈ (positions.filter (word buffer · = LC_LOAD_DYLIB)).map (namePosition buffer),
        StringInside buffer name := by
    simp only [collects.dylibs, List.map_nil, List.nil_append]
  simp only [List.forall_mem_map, List.mem_filter, decide_eq_true_eq, and_imp] at names
  exact names

theorem Collects.namesInside {positions : List Nat} {loaded : LoadState}
    (collects : Collects buffer positions ⟨none, [], []⟩ loaded) :
    NamesInside buffer loaded.symbols := by
  intro symbol present place name
  rcases collects.symbols symbol present with earlier | entryPoint
  · cases earlier
  · simp only [entryPoint] at name
    cases name

theorem yields_parseTable {file : MDBMachFile} {image symtabCommand : Nat}
    (names : NamesInside file.buffer file.symbols) :
    Yields (parseTable file image symtabCommand) (KeepsInside file.buffer) ↔
      TableInside file.buffer image symtabCommand ∧
        ∀ dylib ∈ file.dylibs, StringInside file.buffer dylib.fileName := by
  have whole : TableInside file.buffer image symtabCommand ↔
      symtabCommand + 20 ≤ file.buffer.length ∧
        ∀ i < (word file.buffer (symtabCommand + 12)).toNat,
          EntryInside file.buffer (image + (word file.buffer (symtabCommand + 16)).toNat)
            (image + (word file.buffer (symtabCommand + 8)).toNat + sizeofNlist * i) :=
    ⟨fun inside => ⟨inside.command, inside.entries⟩, fun inside => ⟨inside.1, inside.2⟩⟩
  simp only [parseTable, Option.bind_eq_bind, yields_bind, yields_wordAt, pure, yields_some,
    KeepsInside, true_imp_iff, yields_and_right, yields_loadSymbolTable, whole, names, true_and]
  constructor
  · rintro ⟨⟨_, _, command, entries⟩, dylibs⟩
    exact ⟨⟨command, entries⟩, dylibs⟩
  · rintro ⟨⟨command, entries⟩, dylibs⟩
    exact ⟨⟨by omega, by omega, command, entries⟩, dylibs⟩

theorem keepsInside_rejected {file : MDBMachFile} : KeepsInside buffer (false, file) := by
  rintro ⟨⟩

theorem yields_parseCommands {image : Nat} {fileName : List Byte} :
    Yields (parseCommands log { create fileName with buffer } image) (KeepsInside buffer) ↔
      image + 20 ≤ buffer.length ∧
      (∀ position ∈ imageCommands buffer image, CommandInside log buffer position) ∧
      (∀ symtabCommand, lastSymtab buffer (imageCommands buffer image) = some symtabCommand →
        TableInside buffer image symtabCommand) ∧
      ((lastSymtab buffer (imageCommands buffer image)).isSome →
        ∀ position ∈ imageCommands buffer image, word buffer position = LC_LOAD_DYLIB →
          StringInside buffer (namePosition buffer position)) := by
  simp only [parseCommands, create, Option.bind_eq_bind, yields_bind, yields_wordAt]
  apply and_congr_right
  intro _
  have loads : (loadCommands log buffer (word buffer (image + 16)).toNat
      (image + sizeofMachHeader) ⟨none, [], []⟩).isSome ↔
        ∀ position ∈ imageCommands buffer image, CommandInside log buffer position :=
    isSome_loadCommands
  rw [← loads]
  cases ran : loadCommands log buffer (word buffer (image + 16)).toNat
      (image + sizeofMachHeader) ⟨none, [], []⟩ with
  | none => simp
  | some loaded =>
      have collects : Collects buffer (imageCommands buffer image) ⟨none, [], []⟩ loaded :=
        collects_loadCommands ran
      have symtab := collects.symtab
      simp only [Option.or_none] at symtab
      rw [yields_some, symtab]
      cases last : lastSymtab buffer (imageCommands buffer image) with
      | none => simp [keepsInside_rejected]
      | some symtabCommand =>
          rw [yields_parseTable collects.namesInside, collects.stringInside_iff]
          simp

theorem yields_parseImage {image : Nat} {fileName : List Byte} :
    Yields (parseImage log { create fileName with buffer } image) (KeepsInside buffer) ↔
      ImageInside log buffer image := by
  simp only [parseImage, Option.bind_eq_bind, yields_bind, yields_wordAt]
  by_cases magic : word buffer image = MH_MAGIC
  · by_cases type : word buffer (image + 12) = MH_EXECUTE ∨
        word buffer (image + 12) = MH_DYLIB ∨ word buffer (image + 12) = MH_DYLINKER
    · have readable : Readable buffer image := ⟨magic, type⟩
      simp only [magic, ne_eq, not_true_eq_false, if_false, yields_bind, yields_wordAt,
        type, yields_parseCommands]
      constructor
      · rintro ⟨magicInside, filetypeInside, ncmdsInside, commands, symtab, names⟩
        exact ⟨magicInside, fun _ => filetypeInside, fun _ => ncmdsInside, fun _ => commands,
          fun _ => symtab, fun _ => names⟩
      · intro inside
        exact ⟨inside.magic, inside.filetype magic, inside.ncmds readable,
          inside.commands readable, inside.symtab readable, inside.names readable⟩
    · have unreadable : ¬Readable buffer image := fun readable => type readable.2
      simp only [magic, ne_eq, not_true_eq_false, if_false, yields_bind, yields_wordAt, type,
        not_false_eq_true, if_true, pure, yields_some, keepsInside_rejected, and_true]
      constructor
      · rintro ⟨magicInside, filetypeInside⟩
        exact ⟨magicInside, fun _ => filetypeInside, fun readable => absurd readable unreadable,
          fun readable => absurd readable unreadable, fun readable => absurd readable unreadable,
          fun readable => absurd readable unreadable⟩
      · intro inside
        exact ⟨inside.magic, inside.filetype magic⟩
  · have unreadable : ¬Readable buffer image := fun readable => magic readable.1
    simp only [magic, ne_eq, not_false_eq_true, if_true, pure, yields_some, keepsInside_rejected,
      and_true]
    constructor
    · intro magicInside
      exact ⟨magicInside, fun other => absurd other magic,
        fun readable => absurd readable unreadable, fun readable => absurd readable unreadable,
        fun readable => absurd readable unreadable, fun readable => absurd readable unreadable⟩
    · intro inside
      exact inside.magic

/-! ## The file -/

theorem yields_findX86Image {count first : Nat} {post : Option Nat → Prop} (rejected : post none) :
    Yields (findX86Image buffer count first) post ↔
      ∀ index < count, (∀ i < index, ¬ForX86 buffer (first + sizeofFatArch * i)) →
        first + sizeofFatArch * index + 4 ≤ buffer.length ∧
        (ForX86 buffer (first + sizeofFatArch * index) →
          first + sizeofFatArch * index + 12 ≤ buffer.length ∧
          post (some (pointedAt buffer (first + sizeofFatArch * index)))) := by
  induction count generalizing first with
  | zero => simp [findX86Image, rejected]
  | succ count ih =>
      have next : ∀ i,
          first + sizeofFatArch * (i + 1) = first + sizeofFatArch + sizeofFatArch * i := by
        intro i
        rw [Nat.mul_succ]
        omega
      simp only [findX86Image, Option.bind_eq_bind, yields_bind, yields_wordAt]
      simp only [Nat.forall_lt_succ_left, Nat.mul_zero, Nat.add_zero, next]
      by_cases x86 : ForX86 buffer first
      · have found : swapEndian (word buffer first) = CPU_TYPE_X86 := x86
        simp only [found, if_true, yields_bind, yields_wordAt, pure, yields_some, x86]
        constructor
        · rintro ⟨cputype, offset, image⟩
          exact ⟨fun _ => ⟨cputype, fun _ => ⟨offset, image⟩⟩,
            fun _ _ others => absurd trivial others.1⟩
        · rintro ⟨entry, _⟩
          rcases entry (fun i bound => absurd bound (Nat.not_lt_zero i)) with ⟨cputype, whole⟩
          exact ⟨cputype, whole trivial⟩
      · have other : ¬swapEndian (word buffer first) = CPU_TYPE_X86 := x86
        simp only [other, if_false, ih, x86]
        simp

theorem yields_parse {content fileName : List Byte} (terminated : 0#8 ∉ fileName) :
    Yields (parse log (some content) (create fileName)) (KeepsInside content) ↔
      FileInside log fileName content := by
  have whole : FileInside log fileName content ↔ LogsName log symbolsMessage fileName ∧
      4 ≤ content.length ∧ (word content 0 = FAT_CIGAM → FatInside log content) ∧
      (word content 0 ≠ FAT_CIGAM → ImageInside log content 0) :=
    ⟨fun inside => ⟨inside.logged, inside.magic, inside.fat, inside.thin⟩,
      fun inside => ⟨inside.1, inside.2.1, inside.2.2.1, inside.2.2.2⟩⟩
  have fat : FatInside log content ↔ 8 ≤ content.length ∧
      ∀ index < (swapEndian (word content 4)).toNat,
        (∀ i < index, ¬ForX86 content (sizeofFatHeader + sizeofFatArch * i)) →
          FatArchInside log content (sizeofFatHeader + sizeofFatArch * index) :=
    ⟨fun inside => ⟨inside.header, inside.entries⟩, fun inside => ⟨inside.1, inside.2⟩⟩
  have entry : ∀ position, FatArchInside log content position ↔
      position + 4 ≤ content.length ∧ (ForX86 content position →
        position + 12 ≤ content.length ∧
          ImageInside log content (pointedAt content position)) := by
    intro position
    exact ⟨fun inside => ⟨inside.cputype, fun x86 => ⟨inside.offset x86, inside.image x86⟩⟩,
      fun inside => ⟨inside.1, fun x86 => (inside.2 x86).1, fun x86 => (inside.2 x86).2⟩⟩
  rw [whole, ← isSome_logName_fileName terminated]
  rw [parse, Option.bind_eq_bind, yields_bind, yields_const]
  simp only [findImage, Option.bind_eq_bind, yields_bind, yields_wordAt, Nat.zero_add]
  apply and_congr_right
  intro _
  apply and_congr_right
  intro _
  by_cases magic : word content 0 = FAT_CIGAM
  · have rejected : Yields (some (false, { create fileName with buffer := content }))
        (KeepsInside content) := by
      rw [yields_some]
      exact keepsInside_rejected
    simp only [magic, if_true, yields_bind, yields_wordAt, true_imp_iff, ne_eq,
      not_true_eq_false, false_imp_iff, and_true, fat, entry]
    rw [yields_findX86Image rejected]
    simp only [yields_parseImage]
  · simp only [magic, if_false, pure, yields_some, false_imp_iff, true_and, ne_eq,
      not_false_eq_true, true_imp_iff]
    exact yields_parseImage

/-! ## Images in memory -/

theorem commandsIdentify_cons {image : List Byte} {first : Nat} {rest : List Nat} :
    CommandsIdentify image (first :: rest) ↔
      IdentityInside image first ∧ (¬Identifies image first → CommandsIdentify image rest) := by
  constructor
  · intro identify
    refine ⟨identify [] first rest rfl fun _ none => absurd none List.not_mem_nil, ?_⟩
    intro unnamed before position after placed earlier
    apply identify (first :: before) position after
    · simp only [placed, List.cons_append]
    · exact List.forall_mem_cons.mpr ⟨unnamed, earlier⟩
  · rintro ⟨inside, others⟩ before position after placed earlier
    cases before with
    | nil =>
        simp only [List.nil_append, List.cons.injEq] at placed
        rw [← placed.1]
        exact inside
    | cons earliest before =>
        simp only [List.cons_append, List.cons.injEq] at placed
        simp only [List.forall_mem_cons, ← placed.1] at earlier
        exact others earlier.1 before position after placed.2 earlier.2

theorem isSome_findIdentity {image : List Byte} {count first : Nat} :
    (findIdentity image count first).isSome ↔
      CommandsIdentify image (commandPositions image count first) := by
  induction count generalizing first with
  | zero => simp [findIdentity, commandPositions, CommandsIdentify]
  | succ count ih =>
      have entry : IdentityInside image first ↔ first + 4 ≤ image.length ∧
          (Identifies image first → first + 12 ≤ image.length) ∧
          (¬Identifies image first → first + 8 ≤ image.length) :=
        ⟨fun inside => ⟨inside.cmd, inside.name, inside.cmdsize⟩,
          fun inside => ⟨inside.1, inside.2.1, inside.2.2⟩⟩
      have rest : ∀ position, Yields (findIdentity image count position) (fun _ => True) ↔
          CommandsIdentify image (commandPositions image count position) :=
        fun _ => isSome_iff_yields.symm.trans ih
      simp only [commandPositions, commandsIdentify_cons, entry, isSome_iff_yields]
      simp only [findIdentity, Option.bind_eq_bind, yields_bind, yields_wordAt]
      by_cases identifies : Identifies image first
      · have found : word image first = LC_ID_DYLIB ∨ word image first = LC_ID_DYLINKER :=
          identifies
        simp only [found, if_true, yields_bind, yields_wordAt, pure, yields_some]
        simp [identifies]
      · have other : ¬(word image first = LC_ID_DYLIB ∨ word image first = LC_ID_DYLINKER) :=
          identifies
        simp only [other, if_false, yields_bind, yields_wordAt, rest, identifies, false_imp_iff,
          not_false_eq_true, true_imp_iff, true_and, and_assoc, Nat.add_assoc first]

end MDBMachFile

/-! ## The readers -/

/--
`MDBMachFile::parse` inspects no byte outside of the file, nor an argument that the log has not
been given, and, if it accepts the file, keeps no name that runs out of it.
-/
def ParseStaysInside (log : MDBLog) (fileName content : List Byte) : Prop :=
  Yields (MDBMachFile.parse log (some content) (.create fileName))
    (MDBMachFile.KeepsInside content)

/--
The readers stay inside exactly when the bytes say that everything lies inside, and the names
that are logged can be printed.
-/
theorem readers_stay_inside_iff (log : MDBLog) (fileName content image : List Byte)
    (terminated : 0#8 ∉ fileName) (header : sizeofMachHeader ≤ image.length)
    (magic : word image 0 = MH_MAGIC) :
    (ParseStaysInside log fileName content ↔ FileInside log fileName content) ∧
      ((MDBMachFile.findImageName image).isSome ↔
        CommandsIdentify image (imageCommands image 0)) := by
  refine ⟨MDBMachFile.yields_parse terminated, ?_⟩
  have magicAt : wordAt image 0 = some (word image 0) := by
    apply wordAt_of_le
    simp only [sizeofMachHeader] at header
    omega
  have ncmdsAt : wordAt image 16 = some (word image 16) := by
    apply wordAt_of_le
    simp only [sizeofMachHeader] at header
    omega
  simp only [MDBMachFile.findImageName, magicAt, magic, ncmdsAt, Option.bind_eq_bind,
    Option.bind_some, if_true]
  simp only [MDBMachFile.isSome_findIdentity, imageCommands, Nat.zero_add]

/-- The header of an executable that announces a load command and ends. -/
def truncatedFile : List Byte :=
  [0xfeedface, 7, 3, 2, 1, 8, 0].flatMap (LittleEndian.toBytes 4)

theorem readers_stay_inside_truncated :
    (ParseStaysInside (.create none) [] truncatedFile ↔
      FileInside (.create none) [] truncatedFile) ∧
      ((MDBMachFile.findImageName truncatedFile).isSome ↔
        CommandsIdentify truncatedFile (imageCommands truncatedFile 0)) :=
  readers_stay_inside_iff (.create none) [] truncatedFile truncatedFile List.not_mem_nil
    (Nat.le_refl 28) rfl

/-- The reader inspects the load command behind the end of the file. -/
theorem parse_leaves_truncated : ¬ParseStaysInside (.create none) [] truncatedFile := by
  have stops : MDBMachFile.parse (.create none) (some truncatedFile) (.create []) = none := by
    decide
  rintro ⟨_, ran, _⟩
  rw [stops] at ran
  cases ran

end RustDbg
