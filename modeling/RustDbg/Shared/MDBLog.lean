import RustDbg.Library.Printf
import RustDbg.Shared.Strings

/-!
# The log

`MDBLog::traceLn` in its three overloads: the one for a type of messages formats the text,
the one for a color puts it between escape sequences, and the last one prints the result,
for which it takes it as a format. Nothing comes out where the behaviour is undefined: text
that does not fit in its array, or a format without its arguments.
-/

namespace RustDbg

open Buffer Printf

structure MDBLog where
  typeBitMask : BitVec 32
deriving DecidableEq, Repr

namespace MDBLog

inductive AnsiColor where
  | WHITE
  | RED
  | LIGHTRED
  | GREEN
  | LIGHTGREEN
  | YELLOW
  | LIGHTYELLOW
  | BLUE
  | LIGHTBLUE
  | MAGENTA
  | LIGHTMAGENTA
  | TEAL
  | LIGHTTEAL
deriving DecidableEq, Repr

/-! ## `LogType` -/

def ERR : BitVec 32 := 0x1#32

def CALL : BitVec 32 := 0x4#32

def SYM : BitVec 32 := 0x8#32

def INFO : BitVec 32 := 0x10#32

def ALL : BitVec 32 := 0xffffffff#32

/-- `readTypeBitMask`, given the value of `MDB_LOG` if it is set. -/
def readTypeBitMask : Option (List Byte) → BitVec 32
  | none => CALL ||| ERR ||| SYM ||| INFO ||| ALL
  | some env_str =>
      let bits := if (strstr env_str (ascii "all")).isSome then ALL else 0
      if (strstr env_str (ascii "none")).isSome then 0 else bits

/-- The constructor of `MDBLog`. -/
def create (env : Option (List Byte)) : MDBLog := ⟨readTypeBitMask env⟩

def isTracing (log : MDBLog) (typeBits : BitVec 32) : Bool := typeBits &&& log.typeBitMask ≠ 0

/-- `_foregroundColors` -/
def foregroundColors : AnsiColor → List Byte
  | .WHITE => ascii "[37m"
  | .RED => ascii "[31m"
  | .LIGHTRED => ascii "[1;31m"
  | .GREEN => ascii "[32m"
  | .LIGHTGREEN => ascii "[1;32m"
  | .YELLOW => ascii "[33m"
  | .LIGHTYELLOW => ascii "[1;33m"
  | .BLUE => ascii "[31m"
  | .LIGHTBLUE => ascii "[1;31m"
  | .MAGENTA => ascii "[35m"
  | .LIGHTMAGENTA => ascii "[1;35m"
  | .TEAL => ascii "[36m"
  | .LIGHTTEAL => ascii "[1;36m"

def getColorForType (typeBits : BitVec 32) : AnsiColor :=
  let color := AnsiColor.WHITE
  let color := if typeBits &&& SYM ≠ 0 then .YELLOW else color
  let color := if typeBits &&& ERR ≠ 0 then .RED else color
  if typeBits &&& INFO ≠ 0 then .GREEN else color

section Printing

variable {Value : Type} (conversions : Conversions Value)

/-- `vsprintf(buffer + strlen(buffer), format, args)` in an array of a size. -/
def appendFormatted (size : Nat) (buffer format : List Byte) (args : List (Argument Value)) :
    Option (List Byte) := do
  let formatted ← printf conversions format args
  let written := appendString buffer formatted
  -- The terminator takes another byte; a zero among the characters ends the string earlier.
  if written.length < size then return fieldString written else none

/-- `appendString` with a color. -/
def appendColored (size : Nat) (buffer : List Byte) (color : AnsiColor) (format : List Byte)
    (args : List (Argument Value)) : Option (List Byte) := do
  let buffer ← appendFormatted conversions size buffer (ascii "\x1b%s")
    [.string (foregroundColors color)]
  let buffer ← appendFormatted conversions size buffer format args
  appendFormatted conversions size buffer (ascii "\x1b[0m") []

/-- `traceLn(format, …)`: what it prints. -/
def printLn (format : List Byte) (args : List (Argument Value)) : Option (List Byte) := do
  let printed ← printf conversions format args
  return printed ++ ascii "\n"

/-- `traceLn(color, typeBits, message)` -/
def traceColoredLn (log : MDBLog) (color : AnsiColor) (typeBits : BitVec 32)
    (message : List Byte) : Option (List Byte) :=
  if log.isTracing typeBits then do
    let buffer ← appendColored conversions 512 [] color (ascii "%s") [.string message]
    printLn conversions buffer []
  else some []

/-- `traceLn(typeBits, format, …)` -/
def traceLn (log : MDBLog) (typeBits : BitVec 32) (format : List Byte)
    (args : List (Argument Value)) : Option (List Byte) :=
  if log.isTracing typeBits then do
    let buffer ← appendFormatted conversions 1024 [] format args
    log.traceColoredLn conversions (getColorForType typeBits) typeBits buffer
  else some []

end Printing

/-- Conversions of which only `%s` and `%%` are used. -/
def noConversions : Conversions Unit := ⟨fun _ _ _ => none, fun _ _ => rfl⟩

/-- `traceLn(typeBits, format, string)`, which reads the string if it traces the message. -/
def traceString (log : MDBLog) (typeBits : BitVec 32) (format : List Byte)
    (string : Option (List Byte)) : Option Unit :=
  if log.isTracing typeBits then do
    let characters ← string
    let _ ← log.traceLn noConversions typeBits format [.string characters]
    return ()
  else some ()

/-- A text that comes out: it fits its arrays, and its percent signs come in pairs. -/
structure Printable (text : List Byte) : Prop where
  short : text.length ≤ 502
  paired : paired text = true

/-- A text between the escape sequence of a color and the one that resets it. -/
def colored (color : AnsiColor) (text : List Byte) : List Byte :=
  ascii "\x1b" ++ foregroundColors color ++ text ++ ascii "\x1b[0m"

/-- The message comes out as a line in its color, with the text as it was formatted. -/
def WritesLine {Value : Type} (conversions : Conversions Value) (log : MDBLog)
    (typeBits : BitVec 32) (format : List Byte) (args : List (Argument Value))
    (text : List Byte) : Prop :=
  log.traceLn conversions typeBits format args =
    some (colored (getColorForType typeBits) text ++ ascii "\n")

variable {Value : Type} {conversions : Conversions Value} {log : MDBLog} {typeBits : BitVec 32}
  {format message text buffer : List Byte} {args : List (Argument Value)} {size : Nat}

/-! ## Strings in arrays -/

theorem appendFormatted_eq {formatted : List Byte} (size : Nat) (buffer : List Byte)
    (printed : printf conversions format args = some formatted) :
    appendFormatted conversions size buffer format args =
      if (buffer ++ formatted).length < size then some (fieldString (buffer ++ formatted))
      else none := by
  rw [appendFormatted, printed]
  rfl

theorem appendFormatted_of_nonzero {formatted : List Byte} (size : Nat) (buffer : List Byte)
    (nonzero : 0#8 ∉ buffer ++ formatted)
    (printed : printf conversions format args = some formatted) :
    appendFormatted conversions size buffer format args =
      if (buffer ++ formatted).length < size then some (buffer ++ formatted) else none := by
  rw [appendFormatted_eq size buffer printed, fieldString_of_notMem nonzero]

/-- A text that fits leaves it to the longer one whether that fits. -/
theorem bind_of_fits {longer : List Byte} {next : List Byte → Option (List Byte)}
    (grows : text.length ≤ longer.length)
    (appended : next text = if longer.length < size then some longer else none) :
    (if text.length < size then some text else none).bind next =
      if longer.length < size then some longer else none := by
  by_cases fits : text.length < size
  · rw [if_pos fits, Option.bind_some, appended]
  · have tooLong : ¬longer.length < size := by omega
    rw [if_neg fits, if_neg tooLong, Option.bind_none]

/-! ## The message in its color -/

theorem length_colored (typeBits : BitVec 32) (text : List Byte) :
    (colored (getColorForType typeBits) text).length = text.length + 9 := by
  have four : (foregroundColors (getColorForType typeBits)).length = 4 := by
    simp only [getColorForType]
    repeat' split
    all_goals decide
  have escape : (ascii "\x1b").length = 1 := by decide
  have reset : (ascii "\x1b[0m").length = 4 := by decide
  simp only [colored, List.length_append, four, escape, reset]
  omega

theorem nonzero_foregroundColors (color : AnsiColor) : 0#8 ∉ foregroundColors color := by
  cases color <;> decide

theorem printf_escape (conversions : Conversions Value) (color : AnsiColor) :
    printf conversions (ascii "\x1b%s") [.string (foregroundColors color)] =
      some (ascii "\x1b" ++ foregroundColors color) := by
  have plain : percent ∉ ascii "\x1b" := by decide
  have split : ascii "\x1b%s" = ascii "\x1b" ++ [percent, 0x73#8] := by decide
  rw [split, printf_append conversions plain, printf_string conversions]
  rfl

/-- The message is put between the escape sequences, if all of it fits. -/
theorem appendColored_eq (size : Nat) (color : AnsiColor) (nonzero : 0#8 ∉ message) :
    appendColored conversions size [] color (ascii "%s") [.string message] =
      if (colored color message).length < size then some (colored color message) else none := by
  have noZero := nonzero_foregroundColors color
  have escape : 0#8 ∉ ascii "\x1b" := by decide
  have reset : 0#8 ∉ ascii "\x1b[0m" := by decide
  have plain : percent ∉ ascii "\x1b[0m" := by decide
  have first := appendFormatted_of_nonzero size [] (by simp [escape, noZero])
    (printf_escape conversions color)
  have second := appendFormatted_of_nonzero size (ascii "\x1b" ++ foregroundColors color)
    (by simp [escape, noZero, nonzero]) (printf_string conversions message [])
  have third := appendFormatted_of_nonzero size
    (ascii "\x1b" ++ foregroundColors color ++ message)
    (by simp [escape, noZero, nonzero, reset]) (printf_of_notMem conversions plain [])
  have string : ascii "%s" = [percent, 0x73#8] := by decide
  rw [appendColored, first, List.nil_append, string, Option.bind_eq_bind]
  apply bind_of_fits
  · simp only [colored, List.length_append]
    omega
  · rw [second]
    apply bind_of_fits
    · simp only [colored, List.length_append]
      omega
    · exact third

/-- What comes of a text: as a format it must not fail, and with the escapes it must fit. -/
theorem traceLn_eq (tracing : log.isTracing typeBits = true)
    (formatted : printf conversions format args = some text) (short : text.length ≤ 1023) :
    log.traceLn conversions typeBits format args =
      if (fieldString text).length ≤ 502 then
        (printf conversions (colored (getColorForType typeBits) (fieldString text)) []).map
          (· ++ ascii "\n")
      else none := by
  have buffered := appendFormatted_eq 1024 [] formatted
  rw [List.nil_append, if_pos (Nat.lt_succ_of_le short)] at buffered
  rw [traceLn, if_pos tracing, buffered, Option.bind_eq_bind, Option.bind_some, traceColoredLn,
    if_pos tracing, appendColored_eq 512 _ (notMem_fieldString text), length_colored]
  by_cases fits : (fieldString text).length ≤ 502
  · rw [if_pos fits, if_pos (by omega), Option.bind_eq_bind, Option.bind_some, printLn]
    cases printf conversions (colored (getColorForType typeBits) (fieldString text)) [] <;> rfl
  · rw [if_neg fits, if_neg (by omega)]
    rfl

/-- The escape sequences have no percent signs. -/
theorem percent_mem_colored_iff (color : AnsiColor) (text : List Byte) :
    percent ∈ colored color text ↔ percent ∈ text := by
  have escape : percent ∉ ascii "\x1b" := by decide
  have reset : percent ∉ ascii "\x1b[0m" := by decide
  have plain : percent ∉ foregroundColors color := by
    cases color <;> decide
  simp [colored, escape, reset, plain]

/--
A traced message that fits its first array is written as it was formatted exactly if it has at
most 502 characters, none of them a percent sign or a zero.
-/
theorem traceLn_writesLine_iff (conversions : Conversions Value) (log : MDBLog)
    (typeBits : BitVec 32) (format : List Byte) (args : List (Argument Value)) (text : List Byte)
    (tracing : log.isTracing typeBits = true)
    (formatted : printf conversions format args = some text) (short : text.length ≤ 1023) :
    log.WritesLine conversions typeBits format args text ↔
      text.length ≤ 502 ∧ percent ∉ text ∧ 0#8 ∉ text := by
  rw [WritesLine, traceLn_eq tracing formatted short]
  constructor
  · intro written
    split at written
    · rename_i fits
      rcases Option.map_eq_some_iff.mp written with ⟨printed, printed_eq, same⟩
      rw [List.append_cancel_right same] at printed_eq
      -- The second pass of formatting makes nothing longer, so that no character was lost.
      have shorter := length_le_of_printf printed_eq
      simp only [length_colored] at shorter
      have whole : fieldString text = text := by
        apply fieldString_eq_of_le
        omega
      rw [whole] at fits printed_eq
      refine ⟨fits, ?_, ?_⟩
      · rw [← percent_mem_colored_iff]
        exact printf_self_iff.mp printed_eq
      · rw [← whole]
        exact notMem_fieldString text
    · cases written
  · rintro ⟨fits, plain, nonzero⟩
    have noPercent : percent ∉ colored (getColorForType typeBits) text := by
      rwa [percent_mem_colored_iff]
    rw [fieldString_of_notMem nonzero, if_pos fits, printf_self_iff.mpr noPercent]
    rfl

/-! ## Whether a message comes out -/

theorem paired_colored (color : AnsiColor) (text : List Byte) :
    paired (colored color text) = paired text := by
  have escape : percent ∉ ascii "\x1b" ++ foregroundColors color := by
    cases color <;> decide
  have reset : percent ∉ ascii "\x1b[0m" := by decide
  rw [colored, paired_append_right _ reset, paired_append_left escape]

/-- A traced message comes out in some form exactly if its text is printable. -/
theorem isSome_traceLn_iff (tracing : log.isTracing typeBits = true)
    (formatted : printf conversions format args = some text) (nonzero : 0#8 ∉ text) :
    (log.traceLn conversions typeBits format args).isSome ↔ Printable text := by
  by_cases short : text.length ≤ 1023
  · rw [traceLn_eq tracing formatted short, fieldString_of_notMem nonzero]
    by_cases fits : text.length ≤ 502
    · rw [if_pos fits, Option.isSome_map, isSome_printf_nil_iff, paired_colored]
      exact ⟨fun pairs => ⟨fits, pairs⟩, fun printable => printable.paired⟩
    · rw [if_neg fits]
      simp only [Option.isSome_none, Bool.false_eq_true, false_iff]
      exact fun printable => fits printable.short
  · have buffered := appendFormatted_eq 1024 [] formatted
    rw [List.nil_append, if_neg (by omega)] at buffered
    rw [traceLn, if_pos tracing, buffered]
    simp only [Option.bind_eq_bind, Option.bind_none, Option.isSome_none, Bool.false_eq_true,
      false_iff]
    intro printable
    have := printable.short
    omega

theorem isSome_traceString_iff {string : Option (List Byte)} (plain : percent ∉ message)
    (nonzero : 0#8 ∉ message) (terminated : ∀ name, string = some name → 0#8 ∉ name) :
    (log.traceString typeBits (message ++ ascii "%s") string).isSome ↔
      (log.isTracing typeBits = true →
        ∃ name, string = some name ∧ Printable (message ++ name)) := by
  rw [traceString]
  split
  · rename_i tracing
    cases string with
    | none => simp [tracing]
    | some name =>
        have formatted : printf noConversions (message ++ ascii "%s") [.string name] =
            some (message ++ name) := by
          have specifier : ascii "%s" = [percent, 0x73#8] := by decide
          rw [printf_append noConversions plain, specifier, printf_string]
          rfl
        have comesOut := isSome_traceLn_iff tracing formatted
          (by simp [nonzero, terminated name rfl])
        simp only [Option.bind_eq_bind, Option.bind_some, Option.some.injEq, exists_eq_left',
          tracing, true_imp_iff, ← comesOut]
        cases log.traceLn noConversions typeBits (message ++ ascii "%s") [.string name] <;> simp
  · rename_i silent
    simp [silent]

/-! ## A log that traces everything -/

theorem traceLn_writesLine_iff_dylib :
    (create none).WritesLine noConversions SYM (ascii "loading dylib %s") [.string (ascii "libc")]
        (ascii "loading dylib libc") ↔
      (ascii "loading dylib libc").length ≤ 502 ∧ percent ∉ ascii "loading dylib libc" ∧
        0#8 ∉ ascii "loading dylib libc" :=
  traceLn_writesLine_iff noConversions (create none) SYM _ _ _ (by decide) (by decide) (by decide)

/-- A name with percent signs loses one, or makes the log read arguments that are not there. -/
theorem not_traceLn_writesLine_percent :
    ¬(create none).WritesLine noConversions SYM (ascii "loading dylib %s")
        [.string (ascii "lib%%c")] (ascii "loading dylib lib%%c") ∧
      ¬(create none).WritesLine noConversions SYM (ascii "loading dylib %s")
        [.string (ascii "lib%n")] (ascii "loading dylib lib%n") := by
  constructor
  · simp only [WritesLine]
    decide
  · simp only [WritesLine]
    decide

end MDBLog

end RustDbg
