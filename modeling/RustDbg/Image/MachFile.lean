import RustDbg.Shared.MDBLog
import RustDbg.Target.Memory

/-!
# The Mach-O reader

`MDBMachFile` and its `parse`, and `findImageName` on an image copied from the target.
A pointer into a buffer is a position in it. The functions inspect the buffer through
the checked accesses of `Buffer` and have no result when one of them reaches outside,
which the source does not notice, or when a name they log is not one that the log can
print. What else they log are numbers, which always come out.
-/

namespace RustDbg

/-- A `const char *` of a symbol. -/
inductive SymbolName where
  | ENTRY_POINT_SYMBOL_NAME
  | inBuffer (position : Nat)
deriving DecidableEq, Repr

/-- The characters of `ENTRY_POINT_SYMBOL_NAME`. -/
def entryPointName : List Byte := "__ENTRY_POINT".toList.map fun c => BitVec.ofNat 8 c.toNat

structure MDBSymbol where
  name : SymbolName
  address : Address
deriving DecidableEq, Repr

structure MDBDylib where
  /-- A position in the buffer of the file that names the library. -/
  fileName : Nat
deriving DecidableEq, Repr

structure MDBMachFile where
  fileName : List Byte
  buffer : List Byte
  symbols : List MDBSymbol
  dylibs : List MDBDylib
deriving DecidableEq, Repr

def swapEndian (x : BitVec 32) : BitVec 32 :=
  (x >>> 24) ||| ((x <<< 8) &&& 0x00FF0000#32) ||| ((x >>> 8) &&& 0x0000FF00#32) ||| (x <<< 24)

/-! ## Constants and layouts of the Mach-O headers -/

def FAT_CIGAM : BitVec 32 := 0xbebafeca#32

def MH_MAGIC : BitVec 32 := 0xfeedface#32

def CPU_TYPE_X86 : BitVec 32 := 7#32

def MH_EXECUTE : BitVec 32 := 2#32

def MH_DYLIB : BitVec 32 := 6#32

def MH_DYLINKER : BitVec 32 := 7#32

def LC_SEGMENT : BitVec 32 := 0x1#32

def LC_SYMTAB : BitVec 32 := 0x2#32

def LC_LOAD_DYLIB : BitVec 32 := 0xc#32

def LC_ID_DYLIB : BitVec 32 := 0xd#32

def LC_ID_DYLINKER : BitVec 32 := 0xf#32

def sizeofFatHeader : Nat := 8

def sizeofFatArch : Nat := 20

def sizeofMachHeader : Nat := 28

def sizeofSegmentCommand : Nat := 56

def sizeofNlist : Nat := 12

/-- `"__TEXT"` -/
def textSegment : List Byte := "__TEXT".toList.map fun c => BitVec.ofNat 8 c.toNat

/-- `"__text"` -/
def textSection : List Byte := "__text".toList.map fun c => BitVec.ofNat 8 c.toNat

namespace MDBMachFile

open Buffer

/-- The constructor of `MDBMachFile`. -/
def create (fileName : List Byte) : MDBMachFile := ⟨fileName, [], [], []⟩

/-- The loop over the `fat_arch` entries: where the first image for x86 starts, if any does. -/
def findX86Image (buffer : List Byte) : Nat → Nat → Option (Option Nat)
  | 0, _ => some none
  | remaining + 1, curr => do
      let cputype ← wordAt buffer curr
      if swapEndian cputype = CPU_TYPE_X86 then
        let offset ← wordAt buffer (curr + 8)
        return some (swapEndian offset).toNat
      else findX86Image buffer remaining (curr + sizeofFatArch)

/-- Where the image to be read starts; none inside if a fat file has no image for x86. -/
def findImage (buffer : List Byte) : Option (Option Nat) := do
  let magic ← wordAt buffer 0
  if magic = FAT_CIGAM then
    let nfat_arch ← wordAt buffer 4
    findX86Image buffer (swapEndian nfat_arch).toNat sizeofFatHeader
  else return some 0

/-- What the loop over the load commands has collected. -/
structure LoadState where
  symtabCommand : Option Nat
  symbols : List MDBSymbol
  dylibs : List MDBDylib
deriving DecidableEq, Repr

/-- Whether the section that follows a segment command at a position is the program text. -/
def isTextSection (buffer : List Byte) (curr : Nat) : Option Bool := do
  let sectCurr := curr + sizeofSegmentCommand
  if ← equalsAt buffer (sectCurr + 16) textSegment then equalsAt buffer sectCurr textSection
  else return false

/-- `"loading symbols from %s"` up to the name. -/
def symbolsMessage : List Byte := ascii "loading symbols from "

/-- `"loading dylib %s"` up to the name. -/
def dylibMessage : List Byte := ascii "loading dylib "

/-- `log.traceLn(MDBLog::SYM, …)` of a message that ends in a name. -/
def logName (log : MDBLog) (message : List Byte) (name : Option (List Byte)) : Option Unit :=
  log.traceString MDBLog.SYM (message ++ ascii "%s") name

/-- One iteration of the loop over the load commands. -/
def loadCommand (log : MDBLog) (buffer : List Byte) (curr : Nat) (state : LoadState) :
    Option LoadState := do
  let cmd ← wordAt buffer curr
  if cmd = LC_SYMTAB then return { state with symtabCommand := some curr }
  else if cmd = LC_SEGMENT then
    if ← isTextSection buffer curr then
      let addr ← wordAt buffer (curr + sizeofSegmentCommand + 32)
      let symbol := ⟨.ENTRY_POINT_SYMBOL_NAME, addr.setWidth 64⟩
      return { state with symbols := state.symbols ++ [symbol] }
    else return state
  else if cmd = LC_LOAD_DYLIB then
    let offset ← wordAt buffer (curr + 8)
    let dylibName := curr + offset.toNat
    logName log dylibMessage (stringAt buffer dylibName)
    return { state with dylibs := state.dylibs ++ [⟨dylibName⟩] }
  else return state

def loadCommands (log : MDBLog) (buffer : List Byte) : Nat → Nat → LoadState → Option LoadState
  | 0, _, state => some state
  | remaining + 1, curr, state => do
      let state ← loadCommand log buffer curr state
      let cmdsize ← wordAt buffer (curr + 4)
      loadCommands log buffer remaining (curr + cmdsize.toNat) state

/-- One iteration of the loop over the symbol table: the symbol of an entry that has one. -/
def loadSymbol (buffer : List Byte) (stringTable curr : Nat) : Option (Option MDBSymbol) := do
  let n_sect ← buffer[curr + 5]?
  if n_sect > 0#8 then
    let n_strx ← wordAt buffer curr
    if n_strx > 1#32 then
      let n_value ← wordAt buffer (curr + 8)
      return some ⟨.inBuffer (stringTable + n_strx.toNat), n_value.setWidth 64⟩
    else return none
  else return none

/-- The loop over the symbol table. -/
def loadSymbolTable (buffer : List Byte) (stringTable : Nat) :
    Nat → Nat → List MDBSymbol → Option (List MDBSymbol)
  | 0, _, symbols => some symbols
  | remaining + 1, curr, symbols => do
      let symbol ← loadSymbol buffer stringTable curr
      loadSymbolTable buffer stringTable remaining (curr + sizeofNlist) (symbols ++ symbol.toList)

/-- `MDBMachFile::parse` from where it has found the last symbol table command. -/
def parseTable (file : MDBMachFile) (image symtabCommand : Nat) : Option (Bool × MDBMachFile) := do
  let symoff ← wordAt file.buffer (symtabCommand + 8)
  let nsyms ← wordAt file.buffer (symtabCommand + 12)
  let stroff ← wordAt file.buffer (symtabCommand + 16)
  let symbols ← loadSymbolTable file.buffer (image + stroff.toNat) nsyms.toNat
    (image + symoff.toNat) file.symbols
  return (true, { file with symbols })

/-- `MDBMachFile::parse` from the load commands of an image on. -/
def parseCommands (log : MDBLog) (file : MDBMachFile) (image : Nat) :
    Option (Bool × MDBMachFile) := do
  let ncmds ← wordAt file.buffer (image + 16)
  let loaded ← loadCommands log file.buffer ncmds.toNat (image + sizeofMachHeader)
    ⟨none, file.symbols, file.dylibs⟩
  let file := { file with symbols := loaded.symbols, dylibs := loaded.dylibs }
  match loaded.symtabCommand with
  | none => return (false, file)
  | some symtabCommand => parseTable file image symtabCommand

/-- `MDBMachFile::parse` from where it has found the image. -/
def parseImage (log : MDBLog) (file : MDBMachFile) (image : Nat) :
    Option (Bool × MDBMachFile) := do
  let magic ← wordAt file.buffer image
  if magic ≠ MH_MAGIC then return (false, file)
  let filetype ← wordAt file.buffer (image + 12)
  if ¬(filetype = MH_EXECUTE ∨ filetype = MH_DYLIB ∨ filetype = MH_DYLINKER) then
    return (false, file)
  parseCommands log file image

/--
`MDBMachFile::parse`, with the content of the file if it can be opened: the
returned `bool` and the object afterwards.
-/
def parse (log : MDBLog) (content : Option (List Byte)) (file : MDBMachFile) :
    Option (Bool × MDBMachFile) := do
  logName log symbolsMessage (some file.fileName)
  match content with
  | none => return (false, file)
  | some content =>
      let file := { file with buffer := content }
      match ← findImage content with
      | none => return (false, file)
      | some image => parseImage log file image

/-- The loop of `MDBMachFile::findImageName`: the position of the name, if there is one. -/
def findIdentity (image : List Byte) : Nat → Nat → Option (Option Nat)
  | 0, _ => some none
  | remaining + 1, curr => do
      let cmd ← wordAt image curr
      if cmd = LC_ID_DYLIB ∨ cmd = LC_ID_DYLINKER then
        -- `dylib_command` and `dylinker_command` start alike.
        let offset ← wordAt image (curr + 8)
        return some (curr + offset.toNat)
      else
        let cmdsize ← wordAt image (curr + 4)
        findIdentity image remaining (curr + cmdsize.toNat)

def findImageName (image : List Byte) : Option (Option Nat) := do
  let magic ← wordAt image 0
  if magic = MH_MAGIC then
    let ncmds ← wordAt image 16
    findIdentity image ncmds.toNat sizeofMachHeader
  else return none

/-! ## Names in the log -/

/-- If the reader's messages are traced, the one that ends in the name can be printed. -/
def LogsName (log : MDBLog) (message name : List Byte) : Prop :=
  log.isTracing MDBLog.SYM = true → MDBLog.Printable (message ++ name)

theorem isSome_logName_fileName {log : MDBLog} {fileName : List Byte}
    (terminated : 0#8 ∉ fileName) :
    (logName log symbolsMessage (some fileName)).isSome ↔
      LogsName log symbolsMessage fileName := by
  rw [logName, MDBLog.isSome_traceString_iff (by decide) (by decide)
    (fun name same => Option.some.inj same ▸ terminated)]
  simp only [LogsName, Option.some.injEq, exists_eq_left']

theorem isSome_logName_dylib {log : MDBLog} {buffer : List Byte} {position : Nat} :
    (logName log dylibMessage (stringAt buffer position)).isSome ↔
      (log.isTracing MDBLog.SYM = true → ∃ name, stringAt buffer position = some name ∧
        MDBLog.Printable (dylibMessage ++ name)) := by
  apply MDBLog.isSome_traceString_iff (by decide) (by decide)
  exact fun name found => notMem_of_stringAt found

theorem loadCommand_segment {log : MDBLog} {buffer : List Byte} {curr : Nat}
    (cmd : wordAt buffer curr = some LC_SEGMENT) (state : LoadState) :
    loadCommand log buffer curr state = do
      if ← isTextSection buffer curr then
        let addr ← wordAt buffer (curr + sizeofSegmentCommand + 32)
        let symbol := ⟨.ENTRY_POINT_SYMBOL_NAME, addr.setWidth 64⟩
        return { state with symbols := state.symbols ++ [symbol] }
      else return state := by
  have notSymtab : LC_SEGMENT ≠ LC_SYMTAB := by decide
  simp only [loadCommand, cmd, Option.bind_eq_bind, Option.bind_some, if_neg notSymtab, if_true]

theorem loadCommands_succ {log : MDBLog} {buffer : List Byte} {curr : Nat}
    {state middle : LoadState} {cmdsize : BitVec 32}
    (ran : loadCommand log buffer curr state = some middle)
    (size : wordAt buffer (curr + 4) = some cmdsize) (remaining : Nat) :
    loadCommands log buffer (remaining + 1) curr state =
      loadCommands log buffer remaining (curr + cmdsize.toNat) middle := by
  simp only [loadCommands, ran, size, Option.bind_eq_bind, Option.bind_some]

/-! ## What the reader leaves alone -/

variable {log : MDBLog} {file : MDBMachFile} {image : Nat} {answer : Bool × MDBMachFile}

/-- The reader changes neither the name nor the buffer of a file. -/
def KeepsFile (file : MDBMachFile) (answer : Bool × MDBMachFile) : Prop :=
  answer.2.fileName = file.fileName ∧ answer.2.buffer = file.buffer

theorem keepsFile_parseTable {symtabCommand : Nat}
    (ran : parseTable file image symtabCommand = some answer) : KeepsFile file answer := by
  simp only [parseTable, Option.bind_eq_bind, Option.bind_eq_some_iff, pure,
    Option.some.injEq] at ran
  rcases ran with ⟨_, _, _, _, _, _, _, _, rfl⟩
  exact ⟨rfl, rfl⟩

theorem keepsFile_parseImage (ran : parseImage log file image = some answer) :
    KeepsFile file answer := by
  simp only [parseImage, parseCommands, Option.bind_eq_bind, Option.bind_eq_some_iff, pure] at ran
  rcases ran with ⟨magic, _, ran⟩
  split at ran
  · cases ran
    exact ⟨rfl, rfl⟩
  · simp only [Option.bind_eq_some_iff] at ran
    rcases ran with ⟨filetype, _, ran⟩
    split at ran
    · cases ran
      exact ⟨rfl, rfl⟩
    · simp only [Option.bind_eq_some_iff] at ran
      rcases ran with ⟨ncmds, _, loaded, _, ran⟩
      split at ran
      · cases ran
        exact ⟨rfl, rfl⟩
      · have kept := keepsFile_parseTable ran
        exact kept

theorem keepsFile_parse {content : List Byte}
    (ran : parse log (some content) file = some answer) :
    KeepsFile { file with buffer := content } answer := by
  simp only [parse, Option.bind_eq_bind, Option.bind_eq_some_iff] at ran
  rcases ran with ⟨_, _, found, _, ran⟩
  cases found with
  | none =>
      cases ran
      exact ⟨rfl, rfl⟩
  | some image => exact keepsFile_parseImage ran

end MDBMachFile

end RustDbg
