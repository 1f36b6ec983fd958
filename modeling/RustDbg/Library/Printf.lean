import Mathlib.Data.List.Basic

/-!
# Formatted text

What `printf` makes of a format (the bytes before its terminator) and its arguments:
characters are copied, `%%` gives a percent sign, `%s` the characters of a string, and the
other conversions are a parameter.
There is no result where the behaviour is undefined, as it is without enough arguments.
-/

namespace Printf

abbrev Byte := BitVec 8

def percent : Byte := 0x25#8

inductive Argument (Value : Type) where
  | string (characters : List Byte)
  | value (value : Value)

/-- The conversions apart from a plain `%s`: what they print, and the arguments they leave. -/
structure Conversions (Value : Type) where
  convert : List Byte → Byte → List (Argument Value) →
    Option (List Byte × List (Argument Value))
  needsArgument : ∀ modifiers specifier, convert modifiers specifier [] = none

/-- The flags, digits, lengths and other characters before the one that says what to convert. -/
def isModifier (byte : Byte) : Bool :=
  byte ∈ [0x20#8, 0x23#8, 0x24#8, 0x27#8, 0x2a#8, 0x2b#8, 0x2d#8, 0x2e#8, 0x30#8, 0x31#8, 0x32#8,
    0x33#8, 0x34#8, 0x35#8, 0x36#8, 0x37#8, 0x38#8, 0x39#8, 0x4c#8, 0x68#8, 0x6a#8, 0x6c#8, 0x71#8,
    0x74#8, 0x7a#8]

variable {Value : Type} (conversions : Conversions Value)

def conversion (modifiers : List Byte) (specifier : Byte) :
    List (Argument Value) → Option (List Byte × List (Argument Value))
  | .string characters :: rest =>
      if modifiers = [] ∧ specifier = 0x73#8 then some (characters, rest)
      else conversions.convert modifiers specifier (.string characters :: rest)
  | args =>
      if modifiers = [] ∧ specifier = 0x73#8 then none
      else conversions.convert modifiers specifier args

/-- The text of a format, inside a conversion from its percent sign on. -/
def render : Option (List Byte) → List Byte → List (Argument Value) → Option (List Byte)
  | none, [], _ => some []
  | some _, [], _ => none
  | none, byte :: rest, args =>
      if byte = percent then render (some []) rest args
      else (render none rest args).map (byte :: ·)
  | some modifiers, byte :: rest, args =>
      if isModifier byte then render (some (modifiers ++ [byte])) rest args
      else if byte = percent then
        if modifiers = [] then (render none rest args).map (percent :: ·) else none
      else do
        let (text, args) ← conversion conversions modifiers byte args
        let others ← render none rest args
        return text ++ others

def printf (format : List Byte) (args : List (Argument Value)) : Option (List Byte) :=
  render conversions none format args

/-- Each percent sign makes a pair with the character behind it, which is another one. -/
def paired : List Byte → Bool
  | [] => true
  | [byte] => byte ≠ percent
  | byte :: next :: rest =>
      if byte = percent then next = percent && paired rest else paired (next :: rest)

variable {conversions : Conversions Value} {format text : List Byte}

theorem conversion_nil (modifiers : List Byte) (specifier : Byte) :
    conversion conversions modifiers specifier [] = none := by
  simp only [conversion, conversions.needsArgument, ite_self]

theorem printf_append (conversions : Conversions Value) (plain : percent ∉ text)
    (format : List Byte) (args : List (Argument Value)) :
    printf conversions (text ++ format) args =
      (printf conversions format args).map (text ++ ·) := by
  induction text with
  | nil => simp
  | cons byte rest ih =>
      simp only [List.mem_cons, not_or] at plain
      simp only [printf] at ih ⊢
      simp only [List.cons_append, render, if_neg (Ne.symm plain.1), ih plain.2, Option.map_map]
      rfl

theorem printf_of_notMem (conversions : Conversions Value) (plain : percent ∉ format)
    (args : List (Argument Value)) :
    printf conversions format args = some format := by
  have whole := printf_append conversions plain [] args
  simpa [printf, render] using whole

theorem printf_string (conversions : Conversions Value) (characters : List Byte)
    (args : List (Argument Value)) :
    printf conversions [percent, 0x73#8] (.string characters :: args) = some characters := by
  have specifier : isModifier 0x73#8 = false := by decide
  have different : (0x73#8 : Byte) ≠ percent := by decide
  simp [printf, render, conversion, specifier, different]

/-- Without arguments a percent sign needs another one, and only one of them is printed. -/
theorem length_render_le (format : List Byte) :
    (∀ text, render conversions none format [] = some text →
      text.length ≤ format.length ∧ (percent ∈ format → text.length < format.length)) ∧
    ∀ modifiers text, render conversions (some modifiers) format [] = some text →
      text.length ≤ format.length := by
  induction format with
  | nil =>
      constructor
      · intro text rendered
        cases rendered
        simp
      · intro modifiers text rendered
        cases rendered
  | cons byte rest ih =>
      constructor
      · intro text rendered
        simp only [render] at rendered
        split at rendered
        · have shorter := ih.2 _ _ rendered
          simp only [List.length_cons]
          omega
        · rename_i other
          rcases Option.map_eq_some_iff.mp rendered with ⟨later, printed, rfl⟩
          have shorter := ih.1 _ printed
          simp only [List.length_cons, List.mem_cons]
          refine ⟨by omega, ?_⟩
          rintro (same | present)
          · exact absurd same.symm other
          · have strict := shorter.2 present
            omega
      · intro modifiers text rendered
        simp only [render] at rendered
        split at rendered
        · have shorter := ih.2 _ _ rendered
          simp only [List.length_cons]
          omega
        · split at rendered
          · split at rendered
            · rcases Option.map_eq_some_iff.mp rendered with ⟨later, printed, rfl⟩
              have shorter := (ih.1 _ printed).1
              simp only [List.length_cons]
              omega
            · cases rendered
          · simp only [conversion_nil] at rendered
            cases rendered

theorem length_le_of_printf (printed : printf conversions format [] = some text) :
    text.length ≤ format.length := by
  exact ((length_render_le format).1 text printed).1

/-- Used as a format, exactly a text without percent signs gives itself. -/
theorem printf_self_iff : printf conversions text [] = some text ↔ percent ∉ text := by
  constructor
  · intro printed present
    exact Nat.lt_irrefl _ (((length_render_le text).1 text printed).2 present)
  · intro plain
    exact printf_of_notMem conversions plain []

/-- With anything between it and its specifier, a conversion needs an argument. -/
theorem render_modified (conversions : Conversions Value) {modifiers : List Byte}
    (modified : modifiers ≠ []) (format : List Byte) :
    render conversions (some modifiers) format [] = none := by
  induction format generalizing modifiers with
  | nil => rfl
  | cons byte rest ih =>
      simp only [render, conversion_nil, if_neg modified]
      split
      · exact ih (by simp)
      · simp

/-- Without arguments the percent signs of a format must come in pairs. -/
theorem isSome_printf_nil_iff (conversions : Conversions Value) (format : List Byte) :
    (printf conversions format []).isSome ↔ paired format = true := by
  have noModifier : isModifier percent = false := by decide
  fun_induction paired format with
  | case1 => simp [printf, render]
  | case2 byte =>
      by_cases sign : byte = percent
      · simp [printf, render, sign]
      · simp [printf, render, sign]
  | case3 next rest ih =>
      simp only [printf] at ih
      by_cases pair : next = percent
      · simp [printf, render, pair, noModifier, ih]
      · have fails : printf conversions (percent :: next :: rest) [] = none := by
          simp only [printf, render, conversion_nil, if_neg pair, if_true, List.nil_append]
          split
          · exact render_modified conversions (List.cons_ne_nil _ _) rest
          · rfl
        simp [fails, pair]
  | case4 byte next rest sign ih =>
      simp only [printf] at ih ⊢
      rw [render, if_neg sign, Option.isSome_map]
      exact ih

theorem paired_cons_of_ne {byte : Byte} (other : byte ≠ percent) (rest : List Byte) :
    paired (byte :: rest) = paired rest := by
  cases rest with
  | nil => simp [paired, other]
  | cons next rest => rw [paired, if_neg other]

theorem paired_append_left (plain : percent ∉ text) (format : List Byte) :
    paired (text ++ format) = paired format := by
  induction text with
  | nil => rfl
  | cons byte rest ih =>
      simp only [List.mem_cons, not_or] at plain
      rw [List.cons_append, paired_cons_of_ne (Ne.symm plain.1), ih plain.2]

theorem paired_append_right (format : List Byte) (plain : percent ∉ text) :
    paired (format ++ text) = paired format := by
  fun_induction paired format with
  | case1 => simpa [paired] using paired_append_left plain []
  | case2 byte =>
      by_cases sign : byte = percent
      · cases text with
        | nil => rfl
        | cons next rest =>
            have other : next ≠ percent := fun same => plain (same ▸ List.mem_cons_self)
            simp [paired, sign, other]
      · have whole := paired_append_left plain []
        rw [List.append_nil] at whole
        simp [paired_cons_of_ne sign, whole, paired, sign]
  | case3 next rest ih => simp [paired, ih]
  | case4 byte next rest sign ih =>
      rw [List.cons_append, paired_cons_of_ne sign]
      exact ih

end Printf
