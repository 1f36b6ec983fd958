import Mathlib.Data.List.Nodup
import Mathlib.Data.List.Pairwise

/-!
# Looking up the first match in a list

The first item that matches a key does not depend on the order of the items exactly
if no key matches two of them. Where no two items have the same key, an item is found
at its own position.
-/

namespace Lookup

universe u v

variable {Item : Type u} {Key : Type v} {isMatch : Item → Key → Bool} {items : List Item}

/-- In any order of the items the same one is found for every key. -/
def OrderIrrelevant (isMatch : Item → Key → Bool) (items : List Item) : Prop :=
  ∀ other : List Item, other.Perm items → ∀ key,
    other.find? (isMatch · key) = items.find? (isMatch · key)

/-- No key matches both items. -/
def Apart (isMatch : Item → Key → Bool) (first second : Item) : Prop :=
  ∀ key, ¬(isMatch first key ∧ isMatch second key)

instance : Std.Symm (Apart isMatch) where
  symm _ _ apart key both := apart key ⟨both.2, both.1⟩

/-- Where a key matches one item at most, that is the one found. -/
theorem find?_eq_some_iff_of_unique {key : Key}
    (unique : ∀ first ∈ items, ∀ second ∈ items, isMatch first key → isMatch second key →
      first = second) {item : Item} :
    items.find? (isMatch · key) = some item ↔ item ∈ items ∧ isMatch item key := by
  constructor
  · intro found
    have matching := List.find?_some found
    exact ⟨List.mem_of_find?_eq_some found, matching⟩
  · rintro ⟨present, matching⟩
    have isSome : (items.find? (isMatch · key)).isSome := by
      rw [List.find?_isSome]
      exact ⟨item, present, matching⟩
    rcases Option.isSome_iff_exists.mp isSome with ⟨first, found⟩
    have firstMem := List.mem_of_find?_eq_some found
    have firstMatch := List.find?_some found
    rw [found, unique first firstMem item present firstMatch matching]

/-- Where no key matches two items, the same items lead to the same one found. -/
theorem find?_eq_of_apart {other : List Item} (apart : items.Pairwise (Apart isMatch))
    (same : ∀ item, item ∈ other ↔ item ∈ items) (key : Key) :
    other.find? (isMatch · key) = items.find? (isMatch · key) := by
  have unique : ∀ first ∈ items, ∀ second ∈ items, isMatch first key → isMatch second key →
      first = second := by
    intro first firstMem second secondMem firstMatch secondMatch
    by_contra different
    exact apart.forall firstMem secondMem different key ⟨firstMatch, secondMatch⟩
  cases found : items.find? (isMatch · key) with
  | none =>
      simp only [List.find?_eq_none] at found ⊢
      intro item present
      apply found item
      exact (same item).mp present
  | some first =>
      have firstMem := List.mem_of_find?_eq_some found
      have firstMatch := List.find?_some found
      cases otherFound : other.find? (isMatch · key) with
      | none =>
          simp only [List.find?_eq_none] at otherFound
          apply absurd firstMatch
          exact otherFound first ((same first).mpr firstMem)
      | some second =>
          have secondMem := (same second).mp (List.mem_of_find?_eq_some otherFound)
          have secondMatch := List.find?_some otherFound
          rw [unique second secondMem first firstMem secondMatch firstMatch]

theorem orderIrrelevant_iff [DecidableEq Item] (nodup : items.Nodup) :
    OrderIrrelevant isMatch items ↔ items.Pairwise (Apart isMatch) := by
  constructor
  · intro irrelevant
    apply nodup.pairwise_of_forall_ne
    rintro first firstMem second secondMem different key ⟨firstMatch, secondMatch⟩
    have firstFirst := irrelevant _ (List.perm_cons_erase firstMem).symm key
    have secondFirst := irrelevant _ (List.perm_cons_erase secondMem).symm key
    simp only [List.find?_cons, firstMatch] at firstFirst
    simp only [List.find?_cons, secondMatch, ← firstFirst, Option.some.injEq] at secondFirst
    exact different secondFirst.symm
  · intro apart other perm key
    exact find?_eq_of_apart apart (fun item => perm.mem_iff) key

theorem findIdx?_of_nodup [BEq Key] [LawfulBEq Key] {key : Item → Key}
    (distinct : (items.map key).Nodup) {index : Nat} {item : Item}
    (present : items[index]? = some item) : items.findIdx? (key · == key item) = some index := by
  rcases List.getElem?_eq_some_iff.mp present with ⟨bound, rfl⟩
  refine List.findIdx?_eq_some_iff_getElem.mpr ⟨bound, by simp, ?_⟩
  intro earlier before same
  have bound' : index < (items.map key).length := by simpa using bound
  have earlierBound := Nat.lt_trans before bound'
  have shared : (items.map key)[earlier] = (items.map key)[index] := by
    simpa using same
  have := distinct.getElem_inj_iff.mp shared
  omega

end Lookup
