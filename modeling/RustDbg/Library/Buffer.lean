import Mathlib.Data.List.Infix
import Mathlib.Data.List.TakeWhile
import RustDbg.Library.LittleEndian

/-!
# Checked access to a byte buffer

Bytes, little-endian words and C strings at a position of a buffer. An access that
would inspect a byte outside of the buffer has no result. Two kinds of facts follow:
exactly when an access has a result, and that one with a result has the same result
wherever the buffer is stored inside a larger one.
-/

namespace Buffer

open LittleEndian (Byte)

/-- The four bytes at a position as a word, with zeros for what lies outside. -/
def word (buffer : List Byte) (position : Nat) : BitVec 32 :=
  BitVec.ofNat 32 (LittleEndian.ofBytes ((buffer.drop position).take 4))

def wordAt (buffer : List Byte) (position : Nat) : Option (BitVec 32) :=
  if position + 4 ≤ buffer.length then some (word buffer position) else none

/-- The bytes of words that follow one another. -/
def wordBytes (words : List (BitVec 32)) : List Byte :=
  words.flatMap fun word => LittleEndian.toBytes 4 word.toNat

/-- Whether the C string at a position is the given one, inspected up to the first difference. -/
def equalsAt (buffer : List Byte) : Nat → List Byte → Option Bool
  | position, [] => do
      let byte ← buffer[position]?
      return byte = 0#8
  | position, expected :: rest => do
      let byte ← buffer[position]?
      if byte = expected then equalsAt buffer (position + 1) rest else return false

/-- The bytes before the first zero. -/
def untilZero : List Byte → Option (List Byte)
  | [] => none
  | byte :: rest => if byte = 0#8 then some [] else (untilZero rest).map (byte :: ·)

/-- The C string at a position. -/
def stringAt (buffer : List Byte) (position : Nat) : Option (List Byte) :=
  untilZero (buffer.drop position)

/-- The string in a field of a fixed size. -/
def fieldString (field : List Byte) : List Byte := field.takeWhile (· ≠ 0#8)

variable {buffer : List Byte} {position : Nat}

/-! ## When an access has a result -/

theorem wordAt_of_le (inside : position + 4 ≤ buffer.length) :
    wordAt buffer position = some (word buffer position) := by
  simp [wordAt, inside]

theorem isSome_wordAt : (wordAt buffer position).isSome ↔ position + 4 ≤ buffer.length := by
  simp [wordAt]

theorem word_of_wordAt {value : BitVec 32} (found : wordAt buffer position = some value) :
    word buffer position = value := by
  simp only [wordAt] at found
  split at found
  · exact Option.some.inj found
  · cases found

@[simp]
theorem length_wordBytes (words : List (BitVec 32)) :
    (wordBytes words).length = 4 * words.length := by
  induction words with
  | nil => rfl
  | cons first rest ih =>
      simp only [wordBytes] at ih ⊢
      simp only [List.flatMap_cons, List.length_append, LittleEndian.length_toBytes, ih,
        List.length_cons]
      omega

theorem word_toBytes_append (value : BitVec 32) (rest : List Byte) :
    word (LittleEndian.toBytes 4 value.toNat ++ rest) 0 = value := by
  have bytes : (LittleEndian.toBytes 4 value.toNat ++ rest).take 4 =
      LittleEndian.toBytes 4 value.toNat := by
    apply List.take_left'
    exact LittleEndian.length_toBytes 4 _
  have small : value.toNat % 256 ^ 4 = value.toNat := Nat.mod_eq_of_lt value.isLt
  simp only [word, List.drop_zero, bytes, LittleEndian.ofBytes_toBytes, small,
    BitVec.ofNat_toNat, BitVec.setWidth_eq]

/-- A word that has been stored is read back. -/
theorem word_wordBytes_append {words : List (BitVec 32)} {i : Nat} {value : BitVec 32}
    (present : words[i]? = some value) (rest : List Byte) :
    word (wordBytes words ++ rest) (4 * i) = value := by
  induction words generalizing i with
  | nil => cases present
  | cons first others ih =>
      have split : wordBytes (first :: others) ++ rest =
          LittleEndian.toBytes 4 first.toNat ++ (wordBytes others ++ rest) := by
        simp only [wordBytes, List.flatMap_cons, List.append_assoc]
      rw [split]
      cases i with
      | zero =>
          simp only [List.getElem?_cons_zero, Option.some.injEq] at present
          rw [present]
          exact word_toBytes_append value _
      | succ i =>
          simp only [List.getElem?_cons_succ] at present
          have next := ih present
          have past : (LittleEndian.toBytes 4 first.toNat ++ (wordBytes others ++ rest)).drop
              (4 * (i + 1)) = (wordBytes others ++ rest).drop (4 * i) := by
            rw [Nat.mul_succ, Nat.add_comm, ← List.drop_drop]
            apply congrArg (List.drop (4 * i))
            apply List.drop_left'
            exact LittleEndian.length_toBytes 4 _
          simp only [word] at next ⊢
          rw [past]
          exact next

/-- A comparison ends at some byte of the buffer that is not the one expected there. -/
theorem isSome_equalsAt {expected : List Byte} :
    (equalsAt buffer position expected).isSome ↔
      ∃ i ≤ expected.length, ∃ byte, buffer[position + i]? = some byte ∧
        expected[i]? ≠ some byte := by
  induction expected generalizing position with
  | nil =>
      cases found : buffer[position]? with
      | none => simp [equalsAt, found]
      | some byte => simp [equalsAt, found]
  | cons first rest ih =>
      have split : (∃ i ≤ (first :: rest).length, ∃ byte, buffer[position + i]? = some byte ∧
          (first :: rest)[i]? ≠ some byte) ↔
          (∃ byte, buffer[position]? = some byte ∧ first ≠ byte) ∨
          ∃ i ≤ rest.length, ∃ byte, buffer[position + 1 + i]? = some byte ∧
            rest[i]? ≠ some byte := by
        simp only [List.length_cons, ← Nat.lt_succ_iff, Nat.exists_lt_succ_left]
        simp only [Nat.add_zero, List.getElem?_cons_zero, List.getElem?_cons_succ, ne_eq,
          Option.some.injEq, Nat.add_right_comm _ 1, ← Nat.add_assoc]
      rw [split]
      cases found : buffer[position]? with
      | none =>
          have ended : buffer.length ≤ position := List.getElem?_eq_none_iff.mp found
          have outside : ∀ i, buffer[position + 1 + i]? = none := by
            intro i
            rw [List.getElem?_eq_none_iff]
            omega
          simp [equalsAt, found, outside]
      | some byte =>
          by_cases same : byte = first
          · subst same
            simp [equalsAt, found, ih]
          · simp [equalsAt, found, same, Ne.symm same]

theorem isSome_untilZero {bytes : List Byte} : (untilZero bytes).isSome ↔ 0#8 ∈ bytes := by
  induction bytes with
  | nil => simp [untilZero]
  | cons byte rest ih =>
      simp only [untilZero, List.mem_cons]
      split
      · rename_i zero
        simp [zero]
      · rename_i nonzero
        have : 0#8 ≠ byte := Ne.symm nonzero
        simp [ih, this]

theorem isSome_stringAt :
    (stringAt buffer position).isSome ↔ ∃ i, buffer[position + i]? = some 0#8 := by
  simp only [stringAt, isSome_untilZero, List.mem_iff_getElem?]
  simp only [List.getElem?_drop]

/-! ## Strings and their terminators -/

theorem untilZero_append {string : List Byte} (nonzero : 0#8 ∉ string) (behind : List Byte) :
    untilZero (string ++ 0#8 :: behind) = some string := by
  induction string with
  | nil => rfl
  | cons byte rest ih =>
      simp only [List.mem_cons, not_or] at nonzero
      simp only [List.cons_append, untilZero, if_neg (Ne.symm nonzero.1), ih nonzero.2,
        Option.map_some]

theorem notMem_of_untilZero {bytes string : List Byte} (found : untilZero bytes = some string) :
    0#8 ∉ string := by
  induction bytes generalizing string with
  | nil => cases found
  | cons byte rest ih =>
      simp only [untilZero] at found
      split at found
      · cases found
        exact List.not_mem_nil
      · rename_i nonzero
        rcases Option.map_eq_some_iff.mp found with ⟨later, ended, rfl⟩
        simp only [List.mem_cons, not_or]
        exact ⟨Ne.symm nonzero, ih ended⟩

theorem notMem_of_stringAt {string : List Byte} (found : stringAt buffer position = some string) :
    0#8 ∉ string :=
  notMem_of_untilZero found

/-- A string that is read stands before its terminator. -/
theorem prefix_of_untilZero {bytes string : List Byte} (found : untilZero bytes = some string) :
    string ++ [0#8] <+: bytes := by
  induction bytes generalizing string with
  | nil => cases found
  | cons byte rest ih =>
      simp only [untilZero] at found
      split at found
      · rename_i zero
        rw [Option.some.inj found.symm, zero]
        exact List.prefix_append [0#8] rest
      · rcases Option.map_eq_some_iff.mp found with ⟨later, behind, rfl⟩
        apply List.cons_prefix_cons.mpr
        exact ⟨rfl, ih behind⟩

theorem fieldString_of_notMem {field : List Byte} (nonzero : 0#8 ∉ field) :
    fieldString field = field := by
  apply List.takeWhile_eq_self_iff.mpr
  intro byte present
  simp only [decide_eq_true_eq]
  rintro rfl
  exact nonzero present

theorem notMem_fieldString (field : List Byte) : 0#8 ∉ fieldString field := by
  intro present
  simpa using List.mem_takeWhile_imp present

theorem fieldString_eq_of_le {field : List Byte}
    (long : field.length ≤ (fieldString field).length) :
    fieldString field = field := by
  apply List.IsPrefix.eq_of_length_le _ long
  exact List.takeWhile_prefix _

/-! ## Computations that end inside -/

/-- A computation has a result, and the result has a property. -/
def Yields {α : Type} (computation : Option α) (post : α → Prop) : Prop :=
  ∃ result, computation = some result ∧ post result

section Yields

variable {α β : Type} {computation : Option α} {post : α → Prop}

@[simp]
theorem yields_some {result : α} : Yields (some result) post ↔ post result := by
  simp [Yields]

@[simp]
theorem yields_none : ¬Yields none post := by
  simp [Yields]

theorem yields_bind {next : α → Option β} {after : β → Prop} :
    Yields (computation.bind next) after ↔
      Yields computation fun result => Yields (next result) after := by
  cases computation <;> simp

theorem yields_and_left {before : Prop} :
    Yields computation (fun result => before ∧ post result) ↔ before ∧ Yields computation post := by
  cases computation <;> simp

theorem yields_and_right {after : Prop} :
    Yields computation (fun result => post result ∧ after) ↔ Yields computation post ∧ after := by
  cases computation <;> simp

theorem yields_const {before : Prop} :
    Yields computation (fun _ => before) ↔ computation.isSome ∧ before := by
  cases computation <;> simp

theorem yields_wordAt {post : BitVec 32 → Prop} :
    Yields (wordAt buffer position) post ↔
      position + 4 ≤ buffer.length ∧ post (word buffer position) := by
  by_cases inside : position + 4 ≤ buffer.length <;> simp [wordAt, inside]

theorem isSome_iff_yields : computation.isSome ↔ Yields computation fun _ => True := by
  simp [Yields, Option.isSome_iff_exists]

end Yields

/-! ## A buffer inside a larger one -/

/-- A buffer is found at a position of another. -/
def StoredAt (inner outer : List Byte) (base : Nat) : Prop := inner <+: outer.drop base

theorem StoredAt.refl (buffer : List Byte) : StoredAt buffer buffer 0 := by
  simp [StoredAt]

theorem storedAt_cons_iff {byte : Byte} {rest : List Byte} :
    StoredAt (byte :: rest) buffer position ↔
      buffer[position]? = some byte ∧ StoredAt rest buffer (position + 1) := by
  simp only [StoredAt]
  rcases inside : buffer[position]? with _ | here
  · have ended := List.drop_eq_nil_iff.mpr (List.getElem?_eq_none_iff.mp inside)
    simp [ended]
  · rcases List.getElem?_eq_some_iff.mp inside with ⟨bound, found⟩
    rw [List.drop_eq_getElem_cons bound, List.cons_prefix_cons, found, Option.some.injEq,
      eq_comm]

namespace StoredAt

variable {inner outer : List Byte} {base : Nat}

theorem drop (stored : StoredAt inner outer base) (position : Nat) :
    inner.drop position <+: outer.drop (base + position) := by
  rw [← List.drop_drop]
  exact List.IsPrefix.drop stored position

theorem getElem? (stored : StoredAt inner outer base) {position : Nat} {byte : Byte}
    (found : inner[position]? = some byte) : outer[base + position]? = some byte := by
  rcases stored with ⟨rest, whole⟩
  have bound : position < inner.length := (List.getElem?_eq_some_iff.mp found).1
  simp only [← List.getElem?_drop, ← whole, List.getElem?_append_left bound]
  exact found

theorem wordAt (stored : StoredAt inner outer base) {position : Nat} {value : BitVec 32}
    (found : Buffer.wordAt inner position = some value) :
    Buffer.wordAt outer (base + position) = some value := by
  have inside : position + 4 ≤ inner.length := isSome_wordAt.mp (by rw [found]; rfl)
  rcases stored.drop position with ⟨rest, whole⟩
  have lengths := congrArg List.length whole
  simp only [List.length_append, List.length_drop] at lengths
  rw [wordAt_of_le (by omega), ← word_of_wordAt found, word, word, ← whole,
    List.take_append_of_le_length (by rw [List.length_drop]; omega)]

theorem equalsAt (stored : StoredAt inner outer base) {position : Nat} {expected : List Byte}
    {same : Bool} (found : Buffer.equalsAt inner position expected = some same) :
    Buffer.equalsAt outer (base + position) expected = some same := by
  induction expected generalizing position with
  | nil =>
      simp only [Buffer.equalsAt] at found ⊢
      rcases here : inner[position]? with _ | byte
      · simp [here] at found
      · rw [stored.getElem? here]
        rwa [here] at found
  | cons first rest ih =>
      simp only [Buffer.equalsAt] at found ⊢
      rcases here : inner[position]? with _ | byte
      · simp [here] at found
      · rw [stored.getElem? here]
        simp only [here] at found
        simp only [Option.bind_eq_bind, Option.bind_some] at found ⊢
        split at found
        · rename_i agrees
          rw [if_pos agrees]
          exact ih found
        · rename_i differs
          rw [if_neg differs]
          exact found

end StoredAt

/-! ## What a comparison finds -/

/-- Some byte of the buffer tells the C string at a position from a string. -/
def DiffersAt (buffer : List Byte) (position : Nat) (expected : List Byte) : Prop :=
  ∃ i ≤ expected.length, ∃ byte, buffer[position + i]? = some byte ∧
    (expected ++ [0#8])[i]? ≠ some byte

theorem differsAt_cons_iff {first : Byte} {rest : List Byte} :
    DiffersAt buffer position (first :: rest) ↔
      (∃ byte, buffer[position]? = some byte ∧ byte ≠ first) ∨
        DiffersAt buffer (position + 1) rest := by
  simp only [DiffersAt, List.length_cons, ← Nat.lt_succ_iff, Nat.exists_lt_succ_left]
  simp only [Nat.add_zero, List.cons_append, List.getElem?_cons_zero, List.getElem?_cons_succ,
    ne_eq, Option.some.injEq, Nat.add_right_comm _ 1, ← Nat.add_assoc, eq_comm]

theorem equalsAt_eq_true_iff {expected : List Byte} :
    equalsAt buffer position expected = some true ↔
      StoredAt (expected ++ [0#8]) buffer position := by
  induction expected generalizing position with
  | nil =>
      have rest : StoredAt [] buffer (position + 1) := List.nil_prefix
      simp only [List.nil_append, storedAt_cons_iff, rest, and_true]
      cases here : buffer[position]? <;> simp [equalsAt, here]
  | cons first rest ih =>
      simp only [List.cons_append, storedAt_cons_iff, ← ih]
      cases here : buffer[position]? with
      | none => simp [equalsAt, here]
      | some byte => by_cases same : byte = first <;> simp [equalsAt, here, same]

theorem equalsAt_eq_false_iff {expected : List Byte} :
    equalsAt buffer position expected = some false ↔ DiffersAt buffer position expected := by
  induction expected generalizing position with
  | nil =>
      cases here : buffer[position]? with
      | none => simp [equalsAt, DiffersAt, here]
      | some byte =>
          have sides : ¬0#8 = byte ↔ ¬byte = 0#8 := not_congr eq_comm
          simp [equalsAt, DiffersAt, here, sides]
  | cons first rest ih =>
      simp only [differsAt_cons_iff, ← ih]
      cases here : buffer[position]? with
      | none =>
          have outside : ∀ i, buffer[position + 1 + i]? = none := by
            intro i
            have ended : buffer.length ≤ position := List.getElem?_eq_none_iff.mp here
            rw [List.getElem?_eq_none_iff]
            omega
          simp [ih, equalsAt, DiffersAt, here, outside]
      | some byte => by_cases same : byte = first <;> simp [equalsAt, here, same]

theorem equalsAt_field {field expected : List Byte} (stored : StoredAt field buffer position)
    (shorter : expected.length < field.length) (nonzero : 0#8 ∉ expected) :
    equalsAt buffer position expected = some (decide (fieldString field = expected)) := by
  simp only [fieldString]
  induction expected generalizing position field with
  | nil =>
      cases field with
      | nil => simp at shorter
      | cons byte tail =>
          have here : buffer[position]? = some byte := stored.getElem? List.getElem?_cons_zero
          by_cases zero : byte = 0#8 <;> simp [equalsAt, here, zero]
  | cons first rest ih =>
      cases field with
      | nil => simp at shorter
      | cons byte tail =>
          have here : buffer[position]? = some byte := stored.getElem? List.getElem?_cons_zero
          have firstNonzero : first ≠ 0#8 := by
            rintro rfl
            exact nonzero List.mem_cons_self
          by_cases same : byte = first
          · subst same
            have tailStored : StoredAt tail buffer (position + 1) := stored.drop 1
            have tailEquals := ih tailStored (by simpa using shorter)
              fun zeroMem => nonzero (List.mem_cons_of_mem _ zeroMem)
            simp [equalsAt, here, tailEquals, firstNonzero]
          · by_cases zero : byte = 0#8
            · simp [equalsAt, here, zero, firstNonzero.symm]
            · simp [equalsAt, here, same, zero]

theorem untilZero_of_prefix {bytes longer string : List Byte} (stored : bytes <+: longer)
    (found : untilZero bytes = some string) : untilZero longer = some string := by
  rcases stored with ⟨rest, rfl⟩
  induction bytes generalizing string with
  | nil => simp [untilZero] at found
  | cons byte tail ih =>
      simp only [List.cons_append, untilZero]
      simp only [untilZero] at found
      split at found
      · rename_i zero
        rw [if_pos zero]
        exact found
      · rename_i nonzero
        rw [if_neg nonzero]
        rcases ended : untilZero tail with _ | characters
        · simp [ended] at found
        · rw [ih ended]
          rwa [ended] at found

theorem StoredAt.stringAt {inner outer : List Byte} {base : Nat}
    (stored : StoredAt inner outer base) {position : Nat} {string : List Byte}
    (found : Buffer.stringAt inner position = some string) :
    Buffer.stringAt outer (base + position) = some string :=
  untilZero_of_prefix (stored.drop position) found

/-- A string is read from the start of its bytes exactly if its terminator is among them. -/
theorem untilZero_of_start {bytes string : List Byte} (nonzero : 0#8 ∉ string)
    (start : string ++ [0#8] <+: bytes ∨ bytes <+: string ++ [0#8]) :
    untilZero bytes = if string.length < bytes.length then some string else none := by
  have whole : untilZero (string ++ [0#8]) = some string := untilZero_append nonzero []
  by_cases short : string.length < bytes.length
  · rw [if_pos short]
    rcases start with stored | part
    · exact untilZero_of_prefix stored whole
    · have same : bytes = string ++ [0#8] := by
        apply part.eq_of_length_le
        rw [List.length_append, List.length_singleton]
        omega
      rw [same]
      exact whole
  · rw [if_neg short]
    have starts : bytes <+: string := by
      rcases start with stored | part
      · have lengths := stored.length_le
        rw [List.length_append, List.length_singleton] at lengths
        omega
      · apply List.prefix_of_prefix_length_le part (List.prefix_append _ _)
        omega
    cases found : untilZero bytes with
    | none => rfl
    | some _ =>
        have zero : 0#8 ∈ bytes := isSome_untilZero.mp (by rw [found]; rfl)
        exact absurd (starts.subset zero) nonzero

end Buffer
