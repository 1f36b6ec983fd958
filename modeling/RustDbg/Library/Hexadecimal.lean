import Mathlib.Data.Nat.Init

/-!
# Numbers in hexadecimal

The digits of a number as the bytes that `%llx` prints. Numbers with the same digits are
the same, also when more text follows behind a byte that is not a digit.
-/

namespace Hexadecimal

abbrev Byte := BitVec 8

def digit (value : Nat) : Byte := BitVec.ofNat 8 (Nat.digitChar value).toNat

def digits (value : Nat) : List Byte := (Nat.toDigits 16 value).map fun c => BitVec.ofNat 8 c.toNat

theorem digits_eq_if (value : Nat) :
    digits value =
      if value < 16 then [digit value] else digits (value / 16) ++ [digit (value % 16)] := by
  rw [digits, Nat.toDigits_eq_if (by decide)]
  split
  · rfl
  · rw [List.map_append]
    rfl

theorem digits_ne_nil (value : Nat) : digits value ≠ [] := by
  rw [digits_eq_if]
  split <;> simp

theorem digit_injective {first second : Nat} (smallFirst : first < 16) (smallSecond : second < 16)
    (same : digit first = digit second) : first = second := by
  have all : ∀ first < 16, ∀ second < 16, digit first = digit second → first = second := by
    decide
  exact all first smallFirst second smallSecond same

theorem digits_ne_singleton {value : Nat} (large : 16 ≤ value) (byte : Byte) :
    digits value ≠ [byte] := by
  rw [digits_eq_if, if_neg (Nat.not_lt.mpr large)]
  intro single
  have lengths := congrArg List.length single
  have front := List.length_pos_iff.mpr (digits_ne_nil (value / 16))
  simp only [List.length_append, List.length_singleton] at lengths
  omega

theorem digits_injective : Function.Injective digits := by
  intro first second same
  induction first using Nat.strong_induction_on generalizing second with
  | _ first ih =>
      rcases Nat.lt_or_ge first 16 with smallFirst | largeFirst
      · simp only [digits_eq_if first, if_pos smallFirst] at same
        rcases Nat.lt_or_ge second 16 with smallSecond | largeSecond
        · simp only [digits_eq_if second, if_pos smallSecond] at same
          apply digit_injective smallFirst smallSecond
          exact List.singleton_inj.mp same
        · apply absurd same.symm
          exact digits_ne_singleton largeSecond _
      · rcases Nat.lt_or_ge second 16 with smallSecond | largeSecond
        · simp only [digits_eq_if second, if_pos smallSecond] at same
          apply absurd same
          exact digits_ne_singleton largeFirst _
        · rw [digits_eq_if first, digits_eq_if second, if_neg (Nat.not_lt.mpr largeFirst),
            if_neg (Nat.not_lt.mpr largeSecond)] at same
          rcases List.append_inj' same rfl with ⟨front, last⟩
          have quotient := ih (first / 16) (by omega) front
          have remainder := digit_injective (Nat.mod_lt _ (by decide)) (Nat.mod_lt _ (by decide))
            (List.singleton_inj.mp last)
          omega

/-! ## Digits in a text -/

/-- The byte is none of the digits. -/
def NoDigit (byte : Byte) : Prop := ∀ value < 16, digit value ≠ byte

theorem notMem_digits {byte : Byte} (noDigit : NoDigit byte) (value : Nat) :
    byte ∉ digits value := by
  induction value using Nat.strong_induction_on with
  | _ value ih =>
      rw [digits_eq_if]
      split
      · rename_i small
        rw [List.mem_singleton]
        exact (noDigit value small).symm
      · rename_i large
        simp only [List.mem_append, List.mem_singleton, not_or]
        exact ⟨ih _ (by omega), (noDigit _ (Nat.mod_lt _ (by decide))).symm⟩

/-- The first byte of a kind ends the same front. -/
theorem append_cons_inj {byte : Byte} {front other rest otherRest : List Byte}
    (notFront : byte ∉ front) (notOther : byte ∉ other)
    (same : front ++ byte :: rest = other ++ byte :: otherRest) :
    front = other ∧ rest = otherRest := by
  induction front generalizing other with
  | nil =>
      cases other with
      | nil => simpa using same
      | cons first others =>
          simp only [List.nil_append, List.cons_append, List.cons.injEq] at same
          exact absurd (same.1 ▸ List.mem_cons_self) notOther
  | cons first front ih =>
      cases other with
      | nil =>
          simp only [List.nil_append, List.cons_append, List.cons.injEq] at same
          exact absurd (same.1 ▸ List.mem_cons_self) notFront
      | cons otherFirst others =>
          simp only [List.cons_append, List.cons.injEq] at same
          have tails := ih (List.not_mem_of_not_mem_cons notFront)
            (List.not_mem_of_not_mem_cons notOther) same.2
          exact ⟨by rw [same.1, tails.1], tails.2⟩

/-- A text that starts with a number and a byte that is no digit tells the number. -/
theorem digits_append_inj {byte : Byte} {first second : Nat} {rest otherRest : List Byte}
    (noDigit : NoDigit byte)
    (same : digits first ++ byte :: rest = digits second ++ byte :: otherRest) :
    first = second ∧ rest = otherRest := by
  rcases append_cons_inj (notMem_digits noDigit first) (notMem_digits noDigit second) same with
    ⟨numbers, rests⟩
  exact ⟨digits_injective numbers, rests⟩

end Hexadecimal
