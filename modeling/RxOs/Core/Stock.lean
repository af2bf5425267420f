import Mathlib

/-!
# Pools without sharing

A pool of frames of which each is either free or held by one holder.  The frames
that are in the pool at all do not change when a frame is taken or given back.
Counting them says how many holders a pool can serve.
-/

namespace RxOs.Stock

open Function

variable {Holder Frame : Type}

/-- Every frame of `total` is free or has one holder. -/
structure Stocked (total : Finset Frame) (free : List Frame)
    (held : Holder → Option Frame) : Prop where
  nodup : free.Nodup
  apart : ∀ holder frame, held holder = some frame → frame ∉ free
  sole : ∀ holder other frame, held holder = some frame → held other = some frame → holder = other
  whole : ∀ frame, frame ∈ total ↔ frame ∈ free ∨ ∃ holder, held holder = some frame

namespace Stocked

variable {total : Finset Frame} {free rest : List Frame}
variable {held : Holder → Option Frame} {holder other : Holder} {frame : Frame}

theorem mem_of_held (hstocked : Stocked total free held)
    (hheld : held holder = some frame) : frame ∈ total :=
  (hstocked.whole frame).mpr (Or.inr ⟨holder, hheld⟩)

theorem mem_of_free (hstocked : Stocked total free held) (hfree : frame ∈ free) : frame ∈ total :=
  (hstocked.whole frame).mpr (Or.inl hfree)

variable [DecidableEq Holder]

/-- A holder takes a free frame. -/
theorem take (hstocked : Stocked total (frame :: rest) held) (hnone : held holder = none) :
    Stocked total rest (update held holder (some frame)) := by
  obtain ⟨hnew, hrest⟩ := List.nodup_cons.mp hstocked.nodup
  have hfresh : ∀ other, held other ≠ some frame := fun other hheld =>
    hstocked.apart other frame hheld List.mem_cons_self
  refine ⟨hrest, ?_, ?_, ?_⟩
  · intro other each hheld
    by_cases hother : other = holder
    · rw [hother, update_self] at hheld
      rwa [← Option.some.inj hheld]
    · rw [update_of_ne hother] at hheld
      exact fun hmem => hstocked.apart other each hheld (List.mem_cons_of_mem _ hmem)
  · intro left right each hleft hright
    by_cases hl : left = holder
    · by_cases hr : right = holder
      · rw [hl, hr]
      · rw [hl, update_self] at hleft
        rw [update_of_ne hr, ← Option.some.inj hleft] at hright
        exact absurd hright (hfresh right)
    · rw [update_of_ne hl] at hleft
      by_cases hr : right = holder
      · rw [hr, update_self] at hright
        rw [← Option.some.inj hright] at hleft
        exact absurd hleft (hfresh left)
      · rw [update_of_ne hr] at hright
        exact hstocked.sole left right each hleft hright
  · intro each
    rw [hstocked.whole each, List.mem_cons]
    constructor
    · rintro ((rfl | hmem) | ⟨other, hheld⟩)
      · exact Or.inr ⟨holder, update_self ..⟩
      · exact Or.inl hmem
      · refine Or.inr ⟨other, ?_⟩
        rwa [update_of_ne]
        rintro rfl
        rw [hnone] at hheld
        cases hheld
    · rintro (hmem | ⟨other, hheld⟩)
      · exact Or.inl (Or.inr hmem)
      · by_cases hother : other = holder
        · rw [hother, update_self] at hheld
          exact Or.inl (Or.inl (Option.some.inj hheld).symm)
        · rw [update_of_ne hother] at hheld
          exact Or.inr ⟨other, hheld⟩

/-- A holder gives its frame back. -/
theorem give (hstocked : Stocked total free held) (hheld : held holder = some frame) :
    Stocked total (frame :: free) (update held holder none) := by
  have hother : ∀ other each, update held holder none other = some each →
      held other = some each ∧ other ≠ holder := by
    intro other each hsome
    by_cases hsame : other = holder
    · rw [hsame, update_self] at hsome
      cases hsome
    · rw [update_of_ne hsame] at hsome
      exact ⟨hsome, hsame⟩
  refine ⟨List.nodup_cons.mpr ⟨hstocked.apart holder frame hheld, hstocked.nodup⟩, ?_, ?_, ?_⟩
  · intro other each hsome hmem
    obtain ⟨hkept, hne⟩ := hother other each hsome
    rcases List.mem_cons.mp hmem with rfl | hfree
    · exact hne (hstocked.sole other holder each hkept hheld)
    · exact hstocked.apart other each hkept hfree
  · intro left right each hleft hright
    exact hstocked.sole left right each (hother left each hleft).1 (hother right each hright).1
  · intro each
    rw [hstocked.whole each, List.mem_cons]
    constructor
    · rintro (hmem | ⟨other, hkept⟩)
      · exact Or.inl (Or.inr hmem)
      · by_cases hsame : other = holder
        · rw [hsame, hheld] at hkept
          exact Or.inl (Or.inl (Option.some.inj hkept).symm)
        · exact Or.inr ⟨other, by rwa [update_of_ne hsame]⟩
    · rintro ((rfl | hmem) | ⟨other, hsome⟩)
      · exact Or.inr ⟨holder, hheld⟩
      · exact Or.inl hmem
      · exact Or.inr ⟨other, (hother other each hsome).1⟩

omit [DecidableEq Holder] in
/-- The frames of a pool that has run dry are held by fewer holders than there
are, if one of them still has none. -/
theorem card_lt (hstocked : Stocked total [] held) {bound : Finset Holder}
    (hbound : ∀ holder frame, held holder = some frame → holder ∈ bound)
    (hwanted : holder ∈ bound) (hnone : held holder = none) : total.card < bound.card := by
  classical
  have howner : ∀ frame ∈ total, ∃ owner ∈ bound.erase holder, held owner = some frame := by
    intro frame hmem
    rcases (hstocked.whole frame).mp hmem with hfree | ⟨owner, howner⟩
    · cases hfree
    · refine ⟨owner, Finset.mem_erase.mpr ⟨?_, hbound owner frame howner⟩, howner⟩
      rintro rfl
      rw [hnone] at howner
      cases howner
  have hnonempty : Nonempty Holder := ⟨holder⟩
  choose! owner howner hholds using howner
  have hle : total.card ≤ (bound.erase holder).card := by
    refine Finset.card_le_card_of_injOn owner howner ?_
    intro left hleft right hright hsame
    have hboth := hholds left hleft
    rw [hsame, hholds right hright] at hboth
    exact (Option.some.inj hboth).symm
  exact lt_of_le_of_lt hle (Finset.card_erase_lt_of_mem hwanted)

omit [DecidableEq Holder] in
/-- A pool has at least as many frames as holders have one. -/
theorem card_le (hstocked : Stocked total free held) {bound : Finset Holder}
    (hbound : ∀ holder ∈ bound, (held holder).isSome = true) : bound.card ≤ total.card := by
  have hframe : ∀ holder ∈ bound, ∃ frame, held holder = some frame :=
    fun holder hholder => Option.isSome_iff_exists.mp (hbound holder hholder)
  by_cases hempty : Nonempty Frame
  · choose! frame hframe using hframe
    refine Finset.card_le_card_of_injOn frame
      (fun holder hholder => hstocked.mem_of_held (hframe holder hholder)) ?_
    intro left hleft right hright hsame
    exact hstocked.sole left right _ (hframe left hleft) (by rw [hsame]; exact hframe right hright)
  · rcases bound.eq_empty_or_nonempty with rfl | ⟨holder, hholder⟩
    · exact Nat.zero_le _
    · obtain ⟨frame, -⟩ := hframe holder hholder
      exact absurd ⟨frame⟩ hempty

end Stocked

end RxOs.Stock
