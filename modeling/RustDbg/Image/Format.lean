import RustDbg.Image.MachFile

/-!
# Well-formed Mach-O images

What a 32-bit image for x86 says, apart from any bytes, and when the bytes of an image
say it. Offsets are relative to the start of the image. An image is stored as a thin
file, or in a fat file whose first entry for x86 points at it.
-/

namespace RustDbg

open Buffer

/-- An entry of a symbol table with the name the string table gives it. -/
structure SymbolEntry where
  n_strx : BitVec 32
  n_sect : Byte
  n_value : BitVec 32
  name : List Byte

/-- The entry stands for a named symbol that is defined in some section. -/
def SymbolEntry.defined (entry : SymbolEntry) : Bool := entry.n_sect > 0#8 ∧ entry.n_strx > 1#32

/-- A load command and what the reader needs of the data it refers to. -/
inductive MachCommand where
  | symtab (entries : List SymbolEntry)
  /-- A segment, with the first section header after its fixed part. -/
  | segment (sectname segname : List Byte) (addr : BitVec 32)
  | loadDylib (name : List Byte)
  | other (cmd : BitVec 32)

structure MachImage where
  filetype : BitVec 32
  commands : List MachCommand

namespace MachImage

/-- The names of the libraries to load, in command order. -/
def dylibNames (commands : List MachCommand) : List (List Byte) :=
  commands.filterMap fun
    | .loadDylib name => some name
    | _ => none

/-- The entries of the last symbol table. -/
def symbolTable : List MachCommand → Option (List SymbolEntry)
  | [] => none
  | command :: rest =>
      match symbolTable rest, command with
      | some entries, _ => some entries
      | none, .symtab entries => some entries
      | none, _ => none

/-- The addresses of the program texts, which the reader makes entry points. -/
def entryPoints (commands : List MachCommand) : List Address :=
  commands.filterMap fun
    | .segment sectname segname addr =>
        if fieldString segname = textSegment ∧ fieldString sectname = textSection then
          some (addr.setWidth 64)
        else none
    | _ => none

/-- The names and addresses of the defined symbols, in table order. -/
def definedSymbols (machImage : MachImage) : List (List Byte × Address) :=
  (((symbolTable machImage.commands).getD []).filter (·.defined)).map fun entry =>
    (entry.name, entry.n_value.setWidth 64)

variable (command : MachCommand) (rest : List MachCommand)

theorem dylibNames_cons :
    dylibNames (command :: rest) = dylibNames [command] ++ dylibNames rest := by
  simp only [dylibNames, ← List.filterMap_append, List.singleton_append]

theorem entryPoints_cons :
    entryPoints (command :: rest) = entryPoints [command] ++ entryPoints rest := by
  simp only [entryPoints, ← List.filterMap_append, List.singleton_append]

theorem symbolTable_cons :
    symbolTable (command :: rest) = (symbolTable rest).or (symbolTable [command]) := by
  rcases later : symbolTable rest with _ | entries <;>
    cases command <;> simp [symbolTable, later]

end MachImage

/-! ## The bytes of an image -/

/-- The twelve bytes of a symbol table entry, and its name if it is a defined one. -/
structure EntryAt (image : List Byte) (position stringTable : Nat) (entry : SymbolEntry) :
    Prop where
  n_strx : wordAt image position = some entry.n_strx
  n_sect : image[position + 5]? = some entry.n_sect
  n_value : wordAt image (position + 8) = some entry.n_value
  name : entry.defined → stringAt image (stringTable + entry.n_strx.toNat) = some entry.name

/-- A field of a fixed size. -/
def FieldAt (image : List Byte) (position size : Nat) (field : List Byte) : Prop :=
  field.length = size ∧ StoredAt field image position

inductive CommandAt (image : List Byte) (position : Nat) : MachCommand → Prop where
  | symtab {entries : List SymbolEntry} {symoff nsyms stroff : BitVec 32}
      (cmd : wordAt image position = some LC_SYMTAB)
      (symoffAt : wordAt image (position + 8) = some symoff)
      (nsymsAt : wordAt image (position + 12) = some nsyms)
      (stroffAt : wordAt image (position + 16) = some stroff)
      (counted : nsyms.toNat = entries.length)
      (table : ∀ i entry, entries[i]? = some entry →
        EntryAt image (symoff.toNat + sizeofNlist * i) stroff.toNat entry) :
      CommandAt image position (.symtab entries)
  | segment {sectname segname : List Byte} {addr : BitVec 32}
      (cmd : wordAt image position = some LC_SEGMENT)
      (inside : position + sizeofSegmentCommand + 68 ≤ image.length)
      (sectnameAt : FieldAt image (position + sizeofSegmentCommand) 16 sectname)
      (segnameAt : FieldAt image (position + sizeofSegmentCommand + 16) 16 segname)
      (addrAt : wordAt image (position + sizeofSegmentCommand + 32) = some addr) :
      CommandAt image position (.segment sectname segname addr)
  | loadDylib {name : List Byte} {offset : BitVec 32}
      (cmd : wordAt image position = some LC_LOAD_DYLIB)
      (offsetAt : wordAt image (position + 8) = some offset)
      (nameAt : stringAt image (position + offset.toNat) = some name) :
      CommandAt image position (.loadDylib name)
  | other {cmd : BitVec 32} (cmdAt : wordAt image position = some cmd)
      (unknown : cmd ≠ LC_SYMTAB ∧ cmd ≠ LC_SEGMENT ∧ cmd ≠ LC_LOAD_DYLIB) :
      CommandAt image position (.other cmd)

/-- Load commands that follow one another from a position on. -/
inductive CommandsAt (image : List Byte) : Nat → List MachCommand → Prop where
  | nil {position : Nat} : CommandsAt image position []
  | cons {position : Nat} {command : MachCommand} {rest : List MachCommand} {cmdsize : BitVec 32}
      (first : CommandAt image position command)
      (cmdsizeAt : wordAt image (position + 4) = some cmdsize)
      (others : CommandsAt image (position + cmdsize.toNat) rest) :
      CommandsAt image position (command :: rest)

/-- The bytes of a well-formed image of an executable, a dylib or a dylinker. -/
structure WellFormed (image : List Byte) (machImage : MachImage) : Prop where
  magic : wordAt image 0 = some MH_MAGIC
  filetypeAt : wordAt image 12 = some machImage.filetype
  filetype : machImage.filetype = MH_EXECUTE ∨ machImage.filetype = MH_DYLIB ∨
    machImage.filetype = MH_DYLINKER
  ncmds : ∃ ncmds, wordAt image 16 = some ncmds ∧ ncmds.toNat = machImage.commands.length
  commands : CommandsAt image sizeofMachHeader machImage.commands
  symtab : (MachImage.symbolTable machImage.commands).isSome

/-- What the reader needs of the header of an image with a number of load commands. -/
structure MachHeader (image : List Byte) (count : Nat) : Prop where
  magic : wordAt image 0 = some MH_MAGIC
  filetype : ∃ filetype, wordAt image 12 = some filetype ∧
    (filetype = MH_EXECUTE ∨ filetype = MH_DYLIB ∨ filetype = MH_DYLINKER)
  ncmds : ∃ ncmds, wordAt image 16 = some ncmds ∧ ncmds.toNat = count

theorem WellFormed.header {image : List Byte} {machImage : MachImage}
    (wellFormed : WellFormed image machImage) : MachHeader image machImage.commands.length :=
  ⟨wellFormed.magic, ⟨_, wellFormed.filetypeAt, wellFormed.filetype⟩, wellFormed.ncmds⟩

/-! ## Thin and fat files -/

/-- The fat file's first entry for x86 is at an index and points at a position. -/
structure FatEntry (content : List Byte) (index base : Nat) : Prop where
  magic : wordAt content 0 = some FAT_CIGAM
  nfat_arch : ∃ nfat_arch, wordAt content 4 = some nfat_arch ∧
    index < (swapEndian nfat_arch).toNat
  others : ∀ i < index, ∃ cputype,
    wordAt content (sizeofFatHeader + sizeofFatArch * i) = some cputype ∧
      swapEndian cputype ≠ CPU_TYPE_X86
  cputype : ∃ cputype, wordAt content (sizeofFatHeader + sizeofFatArch * index) = some cputype ∧
    swapEndian cputype = CPU_TYPE_X86
  offset : ∃ offset, wordAt content (sizeofFatHeader + sizeofFatArch * index + 8) = some offset ∧
    (swapEndian offset).toNat = base

/-- A file whose image for x86 is the given one. -/
inductive FileOf (image : List Byte) : List Byte → Prop where
  | thin : FileOf image image
  | fat {content : List Byte} {index base : Nat} (entry : FatEntry content index base)
      (stored : StoredAt image content base) : FileOf image content

end RustDbg
