import Mathlib.Data.List.TakeWhile

/-!
# Words between delimiters

A text is some words, none of them empty, with runs of delimiters between them and perhaps
before and behind them. There is exactly one way to read a text like that, and taking one word
after the other off the front finds it.
-/

namespace Tokens

universe u

variable {Character : Type u}

/-- The text is these words with delimiters around them. -/
inductive Separated (delimiter : Character → Bool) :
    List (List Character) → List Character → Prop where
  | blank {gap : List Character} (skipped : ∀ c ∈ gap, delimiter c = true) :
      Separated delimiter [] gap
  | word {gap word rest : List Character} {words : List (List Character)}
      (skipped : ∀ c ∈ gap, delimiter c = true) (nonempty : word ≠ [])
      (plain : ∀ c ∈ word, delimiter c = false)
      (ends : ∀ c, rest.head? = some c → delimiter c = true)
      (others : Separated delimiter words rest) :
      Separated delimiter (word :: words) (gap ++ word ++ rest)

/-- The first word, and the text behind the delimiter that ends it; none if there is no word. -/
def next (delimiter : Character → Bool) (text : List Character) :
    Option (List Character × List Character) :=
  let start := text.dropWhile delimiter
  if start.isEmpty then none
  else some (start.takeWhile (!delimiter ·), (start.dropWhile (!delimiter ·)).tail)

variable {delimiter : Character → Bool} {text word rest gap : List Character}
  {words : List (List Character)} {c : Character}

theorem length_of_next (found : next delimiter text = some (word, rest)) :
    rest.length < text.length := by
  simp only [next, List.isEmpty_iff, Option.ite_none_left_eq_some, Option.some.injEq,
    Prod.mk.injEq] at found
  rcases found with ⟨present, -, rfl⟩
  have positive := List.length_pos_iff.mpr present
  have start : (text.dropWhile delimiter).length ≤ _ := (List.dropWhile_suffix _).length_le
  have left : ((text.dropWhile delimiter).dropWhile (!delimiter ·)).length ≤ _ :=
    (List.dropWhile_suffix _).length_le
  rw [List.length_tail]
  omega

/-! ## Delimiters at the front -/

theorem Separated.cons (separated : Separated delimiter words text) (isDelimiter : delimiter c) :
    Separated delimiter words (c :: text) := by
  cases separated with
  | blank skipped =>
      apply Separated.blank
      exact List.forall_mem_cons.mpr ⟨isDelimiter, skipped⟩
  | word skipped nonempty plain ends others =>
      rw [List.append_assoc, ← List.cons_append, ← List.append_assoc]
      refine .word ?_ nonempty plain ends others
      exact List.forall_mem_cons.mpr ⟨isDelimiter, skipped⟩

theorem Separated.tail (separated : Separated delimiter words text)
    (ends : ∀ c, text.head? = some c → delimiter c = true) :
    Separated delimiter words text.tail := by
  cases separated with
  | blank skipped =>
      apply Separated.blank
      exact fun c mem => skipped c (List.mem_of_mem_tail mem)
  | @word gap word rest words skipped nonempty plain restEnds others =>
      cases gap with
      | nil =>
          rcases List.exists_cons_of_ne_nil nonempty with ⟨first, more, rfl⟩
          have isDelimiter := ends first rfl
          rw [plain first List.mem_cons_self] at isDelimiter
          cases isDelimiter
      | cons first gap =>
          refine .word ?_ nonempty plain restEnds others
          exact fun c mem => skipped c (List.mem_cons_of_mem _ mem)

theorem dropWhile_append (skipped : ∀ c ∈ gap, delimiter c = true) (rest : List Character) :
    (gap ++ rest).dropWhile delimiter = rest.dropWhile delimiter := by
  induction gap with
  | nil => rfl
  | cons first gap ih =>
      have isDelimiter := skipped first List.mem_cons_self
      rw [List.cons_append, List.dropWhile_cons_of_pos isDelimiter]
      exact ih fun c mem => skipped c (List.mem_cons_of_mem _ mem)

/-- A word goes up to the delimiter that ends it. -/
theorem span_append (plain : ∀ c ∈ word, delimiter c = false)
    (ends : ∀ c, rest.head? = some c → delimiter c = true) :
    (word ++ rest).takeWhile (!delimiter ·) = word ∧
      (word ++ rest).dropWhile (!delimiter ·) = rest := by
  induction word with
  | nil =>
      cases rest with
      | nil => exact ⟨rfl, rfl⟩
      | cons c rest =>
          have isDelimiter := ends c rfl
          simp [isDelimiter]
  | cons first word ih =>
      have notDelimiter := plain first List.mem_cons_self
      rcases ih fun c mem => plain c (List.mem_cons_of_mem _ mem) with ⟨taken, left⟩
      simp [notDelimiter, taken, left]

/-! ## Reading a text -/

theorem next_blank (skipped : ∀ c ∈ text, delimiter c = true) : next delimiter text = none := by
  have start := dropWhile_append skipped []
  rw [List.append_nil, List.dropWhile_nil] at start
  simp [next, start]

/-- The first word is taken off, and the others are left. -/
theorem Separated.next_eq_some (separated : Separated delimiter (word :: words) text) :
    ∃ rest, next delimiter text = some (word, rest) ∧ Separated delimiter words rest := by
  cases separated with
  | @word gap _ rest _ skipped nonempty plain ends others =>
      rcases span_append plain ends with ⟨taken, left⟩
      have start : (gap ++ word ++ rest).dropWhile delimiter = word ++ rest := by
        rw [List.append_assoc, dropWhile_append skipped]
        rcases List.exists_cons_of_ne_nil nonempty with ⟨first, more, rfl⟩
        rw [List.cons_append, List.dropWhile_cons_of_neg]
        simp [plain first List.mem_cons_self]
      refine ⟨rest.tail, ?_, others.tail ends⟩
      rw [next, start, taken, left]
      simp [nonempty]

theorem head?_dropWhile {first : Character}
    (found : (text.dropWhile delimiter).head? = some first) :
    delimiter first = false := by
  have stopped := List.head?_dropWhile_not delimiter text
  rwa [found] at stopped

theorem exists_separated_of_next (found : next delimiter text = some (word, rest))
    (separated : Separated delimiter words rest) : Separated delimiter (word :: words) text := by
  simp only [next, List.isEmpty_iff, Option.ite_none_left_eq_some, Option.some.injEq,
    Prod.mk.injEq] at found
  rcases found with ⟨present, rfl, rfl⟩
  have ends : ∀ c, ((text.dropWhile delimiter).dropWhile (!delimiter ·)).head? = some c →
      delimiter c = true := by
    intro c first
    simpa using head?_dropWhile first
  have left : Separated delimiter words
      ((text.dropWhile delimiter).dropWhile (!delimiter ·)) := by
    cases shape : (text.dropWhile delimiter).dropWhile (!delimiter ·) with
    | nil => rwa [shape] at separated
    | cons c others =>
        rw [shape] at separated ends
        exact separated.cons (ends c rfl)
  have nonempty : (text.dropWhile delimiter).takeWhile (!delimiter ·) ≠ [] := by
    rcases List.exists_cons_of_ne_nil present with ⟨first, others, shape⟩
    have plain : delimiter first = false := by
      apply head?_dropWhile
      rw [shape]
      rfl
    simp [shape, plain]
  have plain : ∀ c ∈ (text.dropWhile delimiter).takeWhile (!delimiter ·), delimiter c = false := by
    intro c mem
    simpa using List.mem_takeWhile_imp mem
  have skipped : ∀ c ∈ text.takeWhile delimiter, delimiter c = true :=
    fun c mem => List.mem_takeWhile_imp mem
  have whole := Separated.word skipped nonempty plain ends left
  rwa [List.append_assoc, List.takeWhile_append_dropWhile,
    List.takeWhile_append_dropWhile] at whole

/-- Every text is words between delimiters. -/
theorem exists_separated (delimiter : Character → Bool) (text : List Character) :
    ∃ words, Separated delimiter words text := by
  induction bound : text.length using Nat.strong_induction_on generalizing text with
  | _ _ ih =>
      cases found : next delimiter text with
      | none =>
          refine ⟨[], .blank ?_⟩
          simp only [next, List.isEmpty_iff, ite_eq_left_iff, reduceCtorEq, imp_false,
            Decidable.not_not] at found
          exact List.dropWhile_eq_nil_iff.mp found
      | some result =>
          rcases result with ⟨word, rest⟩
          rcases ih rest.length (bound ▸ length_of_next found) rest rfl with ⟨words, separated⟩
          exact ⟨word :: words, exists_separated_of_next found separated⟩

end Tokens
