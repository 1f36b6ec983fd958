import Mathlib.Logic.Function.Basic

/-!
# Patched stores and the overlay that hides the patches

A store is a total map from addresses to values. Some addresses carry a patch;
for each of them the value that was replaced has been saved. Reading the patched
store through an overlay of the saved values should give back the original. The
file states when it does (`Sound`) and shows that placing and lifting a patch
keep it so, whatever value the patch itself writes and however many patches sit
at one address.
-/

namespace Overlay

universe u v

variable {Address : Type u} {Value : Type v} [DecidableEq Address]

/-- A store read through saved values, a later one covering an earlier one. -/
def overlay (raw : Address → Value) (saved : List (Address × Value)) : Address → Value :=
  saved.foldl (fun store site => Function.update store site.1 site.2) raw

@[simp]
theorem overlay_nil (raw : Address → Value) : overlay raw [] = raw := rfl

@[simp]
theorem overlay_cons (raw : Address → Value) (site : Address × Value)
    (saved : List (Address × Value)) :
    overlay raw (site :: saved) = overlay (Function.update raw site.1 site.2) saved := rfl

theorem overlay_apply_eq {raw : Address → Value} {saved : List (Address × Value)}
    {address : Address} {value : Value}
    (agree : ∀ site ∈ saved, site.1 = address → site.2 = value)
    (covered : raw address = value ∨ ∃ site ∈ saved, site.1 = address) :
    overlay raw saved address = value := by
  induction saved generalizing raw with
  | nil => simpa using covered
  | cons site rest ih =>
      rw [overlay_cons]
      apply ih fun other otherMem => agree other (List.mem_cons_of_mem _ otherMem)
      by_cases here : site.1 = address
      · left
        subst here
        rw [Function.update_self]
        exact agree site List.mem_cons_self rfl
      · rw [Function.update_of_ne (Ne.symm here)]
        rcases covered with untouched | ⟨other, otherMem, otherHere⟩
        · exact Or.inl untouched
        · rcases List.mem_cons.mp otherMem with rfl | otherMem
          · exact absurd otherHere here
          · exact Or.inr ⟨other, otherMem, otherHere⟩

/-- Every saved value is the original one, and the store is patched at saved addresses only. -/
structure Sound (original raw : Address → Value) (saved : List (Address × Value)) : Prop where
  saved_original : ∀ site ∈ saved, site.2 = original site.1
  raw_original : ∀ address, (∀ site ∈ saved, site.1 ≠ address) → raw address = original address

namespace Sound

variable {original raw : Address → Value} {saved saved' : List (Address × Value)}
  {address : Address}

omit [DecidableEq Address] in
theorem nil (original : Address → Value) : Sound original original [] :=
  ⟨by simp, fun _ _ => rfl⟩

theorem overlay_eq (sound : Sound original raw saved) : overlay raw saved = original := by
  funext address
  apply overlay_apply_eq
  · rintro site siteMem rfl
    exact sound.saved_original site siteMem
  · by_cases covered : ∃ site ∈ saved, site.1 = address
    · exact Or.inr covered
    · left
      apply sound.raw_original
      intro site siteMem here
      exact covered ⟨site, siteMem, here⟩

/-- Whatever is written to the store by others, the saved values recover what there was else. -/
theorem rewritten (sound : Sound original raw saved) (raw' : Address → Value) :
    Sound (overlay raw' saved) raw' saved where
  saved_original site mem := by
    symm
    apply overlay_apply_eq
    · intro other otherMem same
      rw [sound.saved_original other otherMem, sound.saved_original site mem, same]
    · exact Or.inr ⟨site, mem, rfl⟩
  raw_original address uncovered := by
    symm
    apply overlay_apply_eq
    · intro site mem same
      exact absurd same (uncovered site mem)
    · exact Or.inl rfl

/-- An address that is not written to reads as before. -/
theorem overlay_rewritten (sound : Sound original raw saved) {raw' : Address → Value}
    (kept : raw' address = raw address) : overlay raw' saved address = original address := by
  apply overlay_apply_eq
  · intro site mem same
    rw [sound.saved_original site mem, same]
  · by_cases covered : ∃ site ∈ saved, site.1 = address
    · exact Or.inr covered
    · left
      rw [kept]
      apply sound.raw_original
      exact fun site mem same => covered ⟨site, mem, same⟩

/-- Any value may be written at an address once its original value is saved. -/
theorem patch (sound : Sound original raw saved) (value : Value)
    (grown : ∀ site, site ∈ saved' ↔ site ∈ saved ∨ site = (address, original address)) :
    Sound original (Function.update raw address value) saved' := by
  constructor
  · intro site siteMem
    rcases (grown site).mp siteMem with old | rfl
    · exact sound.saved_original site old
    · rfl
  · intro other uncovered
    have elsewhere : address ≠ other :=
      uncovered (address, original address) ((grown _).mpr (Or.inr rfl))
    rw [Function.update_of_ne elsewhere.symm]
    apply sound.raw_original
    intro site siteMem
    apply uncovered site
    exact (grown site).mpr (Or.inl siteMem)

/--
Writing the original value back lets saved values of that address be dropped.
Values that other patches saved there may stay.
-/
theorem restore (sound : Sound original raw saved)
    (shrunk : ∀ site ∈ saved', site ∈ saved)
    (kept : ∀ site ∈ saved, site.1 ≠ address → site ∈ saved') :
    Sound original (Function.update raw address (original address)) saved' := by
  constructor
  · intro site siteMem
    apply sound.saved_original site
    exact shrunk site siteMem
  · intro other uncovered
    by_cases here : other = address
    · subst here
      exact Function.update_self ..
    · rw [Function.update_of_ne here]
      apply sound.raw_original
      intro site siteMem siteHere
      exact uncovered site (kept site siteMem (by rw [siteHere]; exact here)) siteHere

end Sound

end Overlay
