import Mathlib

/-!
# Leases

A pool of slots, some of which are leased.  Every owner has a list of slots;
the leased slots are the disjoint union of these lists.
-/

namespace RxOs.Lease

open Function

variable {Owner Slot : Type*} [DecidableEq Owner]

/-- The slots that are taken are the disjoint union of what the owners hold. -/
structure Leased (held : Owner → List Slot) (taken : Slot → Prop) : Prop where
  nodup : ∀ owner, (held owner).Nodup
  disjoint : ∀ left right, left ≠ right → (held left).Disjoint (held right)
  taken_iff : ∀ slot, taken slot ↔ ∃ owner, slot ∈ held owner

variable {held : Owner → List Slot} {taken taken' : Slot → Prop}
variable {owner : Owner} {slots : List Slot} {slot : Slot}

omit [DecidableEq Owner] in
theorem Leased.not_mem (hleased : Leased held taken) (hfree : ¬taken slot)
    (owner : Owner) : slot ∉ held owner :=
  fun hmem => hfree ((hleased.taken_iff slot).mpr ⟨owner, hmem⟩)

/-- An owner without slots is given some that are not taken. -/
theorem Leased.grant (hleased : Leased held taken) (hnone : held owner = [])
    (hnodup : slots.Nodup) (hfree : ∀ slot ∈ slots, ¬taken slot)
    (htaken : ∀ slot, taken' slot ↔ taken slot ∨ slot ∈ slots) :
    Leased (update held owner slots) taken' := by
  refine ⟨?_, ?_, ?_⟩
  · refine (forall_update_iff _ fun _ => List.Nodup).mpr ⟨hnodup, ?_⟩
    exact fun other _ => hleased.nodup other
  · intro left right hne
    have hsplit : ∀ other, other ≠ owner → slots.Disjoint (held other) :=
      fun other _ slot hslot => hleased.not_mem (hfree slot hslot) other
    by_cases hleft : left = owner
    · rw [hleft] at hne ⊢
      rw [update_self, update_of_ne hne.symm]
      exact hsplit right hne.symm
    · rw [update_of_ne hleft]
      by_cases hright : right = owner
      · rw [hright, update_self]
        exact (hsplit left hleft).symm
      · rw [update_of_ne hright]
        exact hleased.disjoint left right hne
  · intro slot
    rw [htaken, hleased.taken_iff]
    constructor
    · rintro (⟨other, hother⟩ | hslot)
      · have hne : other ≠ owner := by
          rintro rfl
          rw [hnone] at hother
          cases hother
        exact ⟨other, by rwa [update_of_ne hne]⟩
      · exact ⟨owner, by rwa [update_self]⟩
    · rintro ⟨other, hother⟩
      by_cases hne : other = owner
      · rw [hne, update_self] at hother
        exact Or.inr hother
      · rw [update_of_ne hne] at hother
        exact Or.inl ⟨other, hother⟩

/-- An owner gives its slots back. -/
theorem Leased.revoke (hleased : Leased held taken)
    (htaken : ∀ slot, taken' slot ↔ taken slot ∧ slot ∉ held owner) :
    Leased (update held owner []) taken' := by
  have hsub : ∀ other, update held owner [] other ⊆ held other := by
    refine (forall_update_iff _ fun other list => list ⊆ held other).mpr
      ⟨List.nil_subset _, fun other _ => List.Subset.refl _⟩
  refine ⟨?_, ?_, ?_⟩
  · refine (forall_update_iff _ fun _ => List.Nodup).mpr ⟨List.nodup_nil, ?_⟩
    exact fun other _ => hleased.nodup other
  · intro left right hne slot hleft hright
    exact hleased.disjoint left right hne (hsub left hleft) (hsub right hright)
  · intro slot
    rw [htaken, hleased.taken_iff]
    constructor
    · rintro ⟨⟨other, hother⟩, hslot⟩
      have hne : other ≠ owner := by
        rintro rfl
        exact hslot hother
      exact ⟨other, by rwa [update_of_ne hne]⟩
    · rintro ⟨other, hother⟩
      by_cases hne : other = owner
      · rw [hne, update_self] at hother
        cases hother
      · rw [update_of_ne hne] at hother
        exact ⟨⟨other, hother⟩, fun hslot => hleased.disjoint other owner hne hother hslot⟩

end RxOs.Lease
