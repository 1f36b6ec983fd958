import RustDbg.Library.Tokens
import RustDbg.Shared.MBList

/-!
# Splitting a line into words

`MBString::split`, which clones its string, takes it apart with `strtok` and adds a clone of
every token to a list. What it returns is decided by the words of the string alone.
-/

namespace RustDbg

open Tokens

/--
`strtok` on what is left of its string: the token, and what is left behind the terminator that
it writes over the delimiter; none for `NULL`.
-/
def strtok (delimiters rest : List Byte) : Option (List Byte × List Byte) :=
  next delimiters.contains rest

/-- The loop of `MBString::split`. -/
def splitLoop (delimiters : List Byte) (tokens : MBList (List Byte)) (rest : List Byte) :
    Option (MBList (List Byte)) :=
  match _found : strtok delimiters rest with
  | none => some tokens
  | some (token, rest') => do
      let (_, tokens) ← tokens.add token
      splitLoop delimiters tokens rest'
  termination_by rest.length
  decreasing_by exact length_of_next _found

/-- `MBString::split` -/
def split (str delimiters : List Byte) : Option (MBList (List Byte)) :=
  splitLoop delimiters .create str

variable {str rest delimiters : List Byte} {tokens : List (List Byte)}

theorem splitLoop_eq_some {list : MBList (List Byte)} {elements : List (List Byte)}
    (represents : list.Represents elements)
    (separated : Separated delimiters.contains tokens rest) :
    ∃ after, splitLoop delimiters list rest = some after ∧
      after.Represents (elements ++ tokens) := by
  induction tokens generalizing rest list elements with
  | nil =>
      cases separated with
      | blank skipped =>
          have ended : strtok delimiters rest = none := next_blank skipped
          refine ⟨list, ?_, by rwa [List.append_nil]⟩
          rw [splitLoop]
          split
          · rfl
          · rename_i found
            rw [ended] at found
            cases found
  | cons token tokens ih =>
      rcases separated.next_eq_some with ⟨left, taken, others⟩
      rcases represents.add token with ⟨added, added_eq, addedRepresents, -⟩
      rcases ih addedRepresents others with ⟨after, looped, afterRepresents⟩
      refine ⟨after, ?_, ?_⟩
      · rw [splitLoop]
        split
        · rename_i ended
          rw [strtok, taken] at ended
          cases ended
        · rename_i found
          rw [strtok, taken] at found
          rcases Prod.mk.inj (Option.some.inj found) with ⟨rfl, rfl⟩
          simp only [added_eq, Option.bind_eq_bind, Option.bind_some]
          exact looped
      · rwa [List.append_assoc, List.singleton_append] at afterRepresents

theorem MBList.Represents.unique {α : Type} {list : MBList α} {elements others : List α}
    (represents : list.Represents elements) (other : list.Represents others) :
    elements = others := by
  have lengths : (elements.map some).length = (others.map some).length := by
    rw [List.length_map, List.length_map, ← represents.length, other.length]
  have prefixes := List.prefix_of_prefix_length_le represents.stored other.stored
    (Nat.le_of_eq lengths)
  apply List.map_injective_iff.mpr (fun _ _ => Option.some.inj)
  exact prefixes.eq_of_length lengths

/--
For every string and all delimiters the list holds exactly the words of the string in order,
however many delimiters are between them, before the first and behind the last one.
-/
theorem split_iff_separated (str delimiters : List Byte) (tokens : List (List Byte)) :
    (∃ list, split str delimiters = some list ∧ list.Represents tokens) ↔
      Separated delimiters.contains tokens str := by
  constructor
  · rintro ⟨list, ran, represents⟩
    rcases exists_separated delimiters.contains str with ⟨words, separated⟩
    rcases splitLoop_eq_some MBList.represents_create separated with ⟨after, looped, held⟩
    rw [split, looped] at ran
    rcases Option.some.inj ran with rfl
    rw [represents.unique held]
    exact separated
  · intro separated
    rcases splitLoop_eq_some MBList.represents_create separated with ⟨after, looped, held⟩
    exact ⟨after, looped, held⟩

end RustDbg
