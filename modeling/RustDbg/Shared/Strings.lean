import Mathlib.Data.List.DropRight
import RustDbg.Library.Buffer
import RustDbg.Target.Memory

/-!
# The string functions

The functions of `MBString` and `appendString`. A string is the list of its bytes before
the terminator; where a function changes its argument, this is the array that holds it.
-/

namespace RustDbg

open Buffer

/-- The characters of a literal. -/
def ascii (literal : String) : List Byte := literal.toList.map fun c => BitVec.ofNat 8 c.toNat

/-- `appendString`, which `vsprintf`s behind the text that is in the buffer. -/
def appendString (buffer formatted : List Byte) : List Byte := buffer ++ formatted

/-! ## Prefixes -/

/-- `strstr`: the position of the first occurrence. -/
def strstr : List Byte → List Byte → Option Nat
  | [], text => if text = [] then some 0 else none
  | byte :: rest, text =>
      if text <+: byte :: rest then some 0 else (strstr rest text).map (· + 1)

/-- `MBString::startsWith` -/
def startsWith (str text : List Byte) : Bool := strstr str text = some 0

theorem startsWith_iff {str text : List Byte} : startsWith str text = true ↔ text <+: str := by
  simp only [startsWith, decide_eq_true_eq]
  cases str with
  | nil => simp [strstr]
  | cons byte rest =>
      rw [strstr]
      split
      · rename_i isPrefix
        exact iff_of_true rfl isPrefix
      · rename_i other
        apply iff_of_false _ other
        cases strstr rest text <;> simp

/-! ## Trimming -/

/-- `isspace` of an ASCII character. -/
def isspace (byte : Byte) : Bool := byte = 0x20#8 ∨ 0x09#8 ≤ byte ∧ byte ≤ 0x0d#8

/-- `while (isspace(*--ptr));`, which has no result if it leaves the array at its start. -/
def skipSpaces (array : List Byte) : Nat → Option Nat
  | 0 => none
  | ptr + 1 => do
      let byte ← array[ptr]?
      if isspace byte then skipSpaces array ptr else return ptr

/-- `MBString::trimRight` of the string that starts an array. -/
def trimRight (array : List Byte) : Option (List Byte) := do
  let str ← untilZero array
  if str.length > 0 then
    let ptr ← skipSpaces array str.length
    if ptr + 1 < array.length then return array.set (ptr + 1) 0#8 else none
  else return array

/-- The characters of a NUL-terminated ASCII string. -/
structure AsciiString where
  characters : List Byte
  ascii : ∀ c ∈ characters, 0 < c.toNat ∧ c.toNat < 128

def EndsInSpace (characters : List Byte) : Prop :=
  ∃ c, characters.getLast? = some c ∧ isspace c = true

/-- The longest prefix that does not end in a space. -/
structure Trimmed (characters trimmed : List Byte) : Prop where
  isPrefix : trimmed <+: characters
  noSpace : ¬EndsInSpace trimmed
  longest : ∀ other, other <+: characters → ¬EndsInSpace other → other.length ≤ trimmed.length

/--
Whatever follows the terminator, the string is trimmed within its own bytes, and trimming it
again changes nothing.
-/
def TrimsRight (str : AsciiString) : Prop :=
  ∃ trimmed, Trimmed str.characters trimmed ∧ ∀ behind, ∃ after,
    trimRight (str.characters ++ 0#8 :: behind) = some (after ++ behind) ∧
      after.length = str.characters.length + 1 ∧ untilZero after = some trimmed ∧
      trimRight (after ++ behind) = some (after ++ behind)

variable {characters trimmed behind : List Byte}

/-- The loop goes back to the last character that is no space. -/
theorem skipSpaces_eq (characters behind : List Byte) :
    skipSpaces (characters ++ behind) characters.length =
      if characters.rdropWhile isspace = [] then none
      else some ((characters.rdropWhile isspace).length - 1) := by
  induction characters using List.reverseRecOn generalizing behind with
  | nil => rfl
  | append_singleton front c ih =>
      have last : (front ++ [c] ++ behind)[front.length]? = some c := by simp
      simp only [List.length_append, List.length_singleton, skipSpaces, last, Option.bind_eq_bind,
        Option.bind_some, List.rdropWhile_concat]
      split
      · rw [List.append_assoc]
        exact ih _
      · simp

theorem trimmed_rdropWhile (characters : List Byte) :
    Trimmed characters (characters.rdropWhile isspace) := by
  refine ⟨List.rdropWhile_prefix _ _, ?_, ?_⟩
  · rintro ⟨c, last, space⟩
    rcases List.getLast?_eq_some_iff.mp last with ⟨front, split⟩
    have nonempty : characters.rdropWhile isspace ≠ [] := by simp [split]
    have noSpace := List.rdropWhile_last_not isspace characters nonempty
    simp only [split, List.getLast_append_singleton] at noSpace
    exact noSpace space
  · intro other otherPrefix noSpace
    by_contra longer
    apply noSpace
    -- A longer prefix ends in one of the characters that are dropped.
    have kept : characters.rdropWhile isspace <+: other :=
      List.prefix_of_prefix_length_le (List.rdropWhile_prefix _ _) otherPrefix (by omega)
    rcases kept with ⟨more, rfl⟩
    have dropped : more <+: characters.rtakeWhile isspace := by
      apply (List.prefix_append_right_inj (characters.rdropWhile isspace)).mp
      rwa [List.rdropWhile_append_rtakeWhile]
    rcases List.eq_nil_or_concat' more with rfl | ⟨front, c, rfl⟩
    · simp at longer
    · refine ⟨c, by simp, ?_⟩
      apply List.mem_rtakeWhile_imp
      exact dropped.subset (by simp)

/-- A string with a character that is no space is cut behind the last one. -/
theorem trimRight_eq (nonzero : 0#8 ∉ characters)
    (visible : characters.rdropWhile isspace ≠ []) (behind : List Byte) :
    trimRight (characters ++ 0#8 :: behind) =
      some ((characters ++ 0#8 :: behind).set (characters.rdropWhile isspace).length 0#8) := by
  have shorter := (List.rdropWhile_prefix isspace characters).length_le
  have positive := List.length_pos_iff.mpr visible
  have inside : (characters.rdropWhile isspace).length <
      (characters ++ 0#8 :: behind).length := by
    simp only [List.length_append, List.length_cons]
    omega
  have nonempty : characters.length > 0 := by omega
  simp only [trimRight, untilZero_append nonzero, skipSpaces_eq, if_neg visible,
    Option.bind_eq_bind, Option.bind_some, if_pos nonempty, Nat.sub_add_cancel positive,
    if_pos inside, Option.pure_def]

/-- Of a string of spaces the byte before the first one is read. -/
theorem trimRight_eq_none (nonzero : 0#8 ∉ characters) (nonempty : characters ≠ [])
    (blank : characters.rdropWhile isspace = []) (behind : List Byte) :
    trimRight (characters ++ 0#8 :: behind) = none := by
  have positive : characters.length > 0 := List.length_pos_iff.mpr nonempty
  simp only [trimRight, untilZero_append nonzero, skipSpaces_eq, if_pos blank,
    Option.bind_eq_bind, Option.bind_some, if_pos positive, Option.bind_none]

theorem AsciiString.nonzero (str : AsciiString) : 0#8 ∉ str.characters := by
  intro present
  have positive := (str.ascii _ present).1
  simp at positive

theorem notMem_rdropWhile (nonzero : 0#8 ∉ characters) :
    0#8 ∉ characters.rdropWhile isspace := by
  intro present
  apply nonzero
  exact (List.rdropWhile_prefix _ _).subset present

/-- What is left of a string is not trimmed any further. -/
theorem trimRight_trimmed (nonzero : 0#8 ∉ characters)
    (visible : characters.rdropWhile isspace ≠ []) (behind : List Byte) :
    trimRight (characters.rdropWhile isspace ++ 0#8 :: behind) =
      some (characters.rdropWhile isspace ++ 0#8 :: behind) := by
  have again : (characters.rdropWhile isspace).rdropWhile isspace =
      characters.rdropWhile isspace := List.rdropWhile_idempotent _ _
  rw [trimRight_eq (notMem_rdropWhile nonzero) (by rwa [again]), again]
  simp

theorem trimsRight_of_visible (str : AsciiString)
    (visible : str.characters.rdropWhile isspace ≠ []) : TrimsRight str := by
  have split : str.characters.rdropWhile isspace ++ str.characters.rtakeWhile isspace =
      str.characters := List.rdropWhile_append_rtakeWhile
  rcases List.exists_cons_of_ne_nil
    (List.append_ne_nil_of_right_ne_nil (str.characters.rtakeWhile isspace)
      (List.cons_ne_nil 0#8 [])) with ⟨first, rest, spaces⟩
  refine ⟨_, trimmed_rdropWhile str.characters, ?_⟩
  intro behind
  refine ⟨str.characters.rdropWhile isspace ++ 0#8 :: rest, ?_, ?_, ?_, ?_⟩
  · have whole : str.characters ++ 0#8 :: behind =
        str.characters.rdropWhile isspace ++ first :: (rest ++ behind) := by
      rw [← List.cons_append, ← spaces, List.append_assoc, ← List.append_assoc, split]
      rfl
    rw [trimRight_eq str.nonzero visible, whole]
    simp
  · have lengths := congrArg List.length split
    have spacesLengths := congrArg List.length spaces
    simp only [List.length_append, List.length_cons, List.length_nil] at lengths spacesLengths ⊢
    omega
  · exact untilZero_append (notMem_rdropWhile str.nonzero) rest
  · rw [List.append_assoc]
    exact trimRight_trimmed str.nonzero visible _

/-- The empty string is left as it is. -/
theorem trimsRight_of_empty (str : AsciiString) (empty : str.characters = []) :
    TrimsRight str := by
  refine ⟨[], ⟨List.nil_prefix, ?_, ?_⟩, ?_⟩
  · rintro ⟨c, last, _⟩
    cases last
  · intro other isPrefix _
    rw [empty] at isPrefix
    exact isPrefix.length_le
  · intro behind
    rw [empty]
    exact ⟨[0#8], rfl, rfl, rfl, rfl⟩

/-- `trimRight` trims a string exactly if that is empty or has a character that is no space. -/
theorem trimsRight_iff (str : AsciiString) :
    TrimsRight str ↔ str.characters = [] ∨ ∃ c ∈ str.characters, isspace c = false := by
  constructor
  · rintro ⟨trimmed, _, trims⟩
    by_contra neither
    rw [not_or] at neither
    have blank : str.characters.rdropWhile isspace = [] := by
      rw [List.rdropWhile_eq_nil_iff]
      intro c present
      by_contra noSpace
      exact neither.2 ⟨c, present, Bool.not_eq_true _ ▸ noSpace⟩
    rcases trims [] with ⟨after, ran, _⟩
    rw [trimRight_eq_none str.nonzero neither.1 blank] at ran
    cases ran
  · rintro (empty | ⟨c, present, noSpace⟩)
    · exact trimsRight_of_empty str empty
    · apply trimsRight_of_visible
      intro blank
      have space := List.rdropWhile_eq_nil_iff.mp blank c present
      rw [noSpace] at space
      cases space

/-- The string `" "`. -/
def oneSpace : AsciiString where
  characters := [0x20#8]
  ascii := by decide

theorem not_trimsRight_oneSpace : ¬TrimsRight oneSpace := by
  rintro ⟨trimmed, _, trims⟩
  rcases trims [] with ⟨after, ran, _⟩
  cases ran

end RustDbg
