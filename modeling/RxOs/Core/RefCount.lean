import Mathlib

/-!
# Reference-counted pools

A pool lends frames to holders and keeps a count for every frame.  A frame may
have several holders, except that a holder can be marked as the sole one of its
frame.  The pool is balanced when the counts are the numbers of holders, the
free frames have none, and sole holders are alone.
-/

namespace RxOs.RefCount

open Function

variable {Holder Frame : Type} [Fintype Holder] [DecidableEq Frame]

/-- Free frames, counts, and what the holders hold. -/
structure Pool (Holder Frame : Type) where
  free : List Frame
  count : Frame → ℤ
  refs : Holder → Option Frame
  sole : Holder → Bool

/-! ## Holders -/

@[irreducible]
def holders (refs : Holder → Option Frame) (frame : Frame) : Finset Holder :=
  Finset.univ.filter fun holder => refs holder = some frame

variable {refs : Holder → Option Frame} {holder other : Holder}
variable {frame : Frame}

@[simp]
theorem mem_holders : holder ∈ holders refs frame ↔ refs holder = some frame := by
  unfold holders
  simp only [Finset.mem_filter, Finset.mem_univ, true_and]

/-! ## Balanced pools -/

/-- Counts, free list and marks agree with what the holders hold. -/
structure Balanced (pool : Pool Holder Frame) : Prop where
  counted : ∀ frame, pool.count frame = (holders pool.refs frame).card
  nodup : pool.free.Nodup
  unheld : ∀ frame ∈ pool.free, pool.count frame = 0
  alone : ∀ holder frame, pool.refs holder = some frame →
    pool.sole holder = true → pool.count frame = 1

namespace Balanced

variable {pool next : Pool Holder Frame}

theorem count_pos (hbalanced : Balanced pool)
    (hrefs : pool.refs holder = some frame) : 0 < pool.count frame := by
  rw [hbalanced.counted, Nat.cast_pos]
  exact Finset.card_pos.mpr ⟨holder, mem_holders.mpr hrefs⟩

theorem not_free (hbalanced : Balanced pool)
    (hrefs : pool.refs holder = some frame) : frame ∉ pool.free := by
  intro hfree
  have hpos := hbalanced.count_pos hrefs
  rw [hbalanced.unheld frame hfree] at hpos
  exact lt_irrefl _ hpos

theorem eq_of_count_eq_one (hbalanced : Balanced pool)
    (hcount : pool.count frame = 1) (hrefs : pool.refs holder = some frame)
    (hother : pool.refs other = some frame) : other = holder := by
  have hcard : (holders pool.refs frame).card ≤ 1 := by
    have hcounted := hbalanced.counted frame
    omega
  exact Finset.card_le_one.mp hcard other (mem_holders.mpr hother) holder (mem_holders.mpr hrefs)

theorem eq_of_sole (hbalanced : Balanced pool)
    (hrefs : pool.refs holder = some frame) (hsole : pool.sole holder = true)
    (hother : pool.refs other = some frame) : other = holder :=
  hbalanced.eq_of_count_eq_one (hbalanced.alone holder frame hrefs hsole) hrefs hother

/-- A change of marks: a holder may become the sole one of a frame that is
counted once. -/
theorem mark (hbalanced : Balanced pool) (hfree : next.free = pool.free)
    (hcount : next.count = pool.count) (hrefs : next.refs = pool.refs)
    (hsole : ∀ holder frame, pool.refs holder = some frame →
      next.sole holder = true → pool.sole holder = true ∨ pool.count frame = 1) :
    Balanced next := by
  refine ⟨?_, hfree ▸ hbalanced.nodup, ?_, ?_⟩
  · rw [hcount, hrefs]
    exact hbalanced.counted
  · rw [hfree, hcount]
    exact hbalanced.unheld
  · intro holder frame hheld hmark
    rw [hrefs] at hheld
    rw [hcount]
    rcases hsole holder frame hheld hmark with hbefore | hone
    · exact hbalanced.alone holder frame hheld hbefore
    · exact hone

end Balanced

/-! ## Lending and giving back -/

variable [DecidableEq Holder]

/-- A holder that takes up a frame. -/
theorem card_holders_give (hnone : refs holder = none) (each : Frame) :
    (holders (update refs holder (some frame)) each).card =
      (holders refs each).card + if each = frame then 1 else 0 := by
  split
  · next hsame =>
      subst hsame
      have hnew : holder ∉ holders refs each := by simp [hnone]
      have hinsert : holders (update refs holder (some each)) each =
          insert holder (holders refs each) := by
        ext other
        by_cases hother : other = holder
        · simp [hother]
        · simp [hother]
      rw [hinsert, Finset.card_insert_of_notMem hnew]
  · next hdiff =>
      have hequal : holders (update refs holder (some frame)) each = holders refs each := by
        ext other
        by_cases hother : other = holder
        · simp [hother, hnone, Ne.symm hdiff]
        · simp [hother]
      rw [hequal, Nat.add_zero]

/-- A holder that gives its frame back. -/
theorem card_holders_drop (hsome : refs holder = some frame) (each : Frame) :
    (holders (update refs holder none) each).card +
      (if each = frame then 1 else 0) = (holders refs each).card := by
  have hback : update (update refs holder none) holder (some frame) = refs := by
    rw [update_idem, ← hsome, update_eq_self]
  have hcard : (holders (update (update refs holder none) holder (some frame))
      each).card = (holders (update refs holder none) each).card +
        if each = frame then 1 else 0 := card_holders_give (update_self holder none refs) each
  rw [hback] at hcard
  exact hcard.symm

namespace Balanced

variable {pool next : Pool Holder Frame}

/-- A free frame goes to a holder that has none. -/
theorem take (hbalanced : Balanced pool) (hnone : pool.refs holder = none)
    (hfree : pool.free = frame :: next.free) (hcount : next.count = update pool.count frame 1)
    (hrefs : next.refs = update pool.refs holder (some frame))
    (hsole : ∀ other ≠ holder, next.sole other = pool.sole other) : Balanced next := by
  have hnodup := hbalanced.nodup
  rw [hfree, List.nodup_cons] at hnodup
  have hzero : pool.count frame = 0 := hbalanced.unheld frame (hfree ▸ List.mem_cons_self)
  refine ⟨?_, hnodup.2, ?_, ?_⟩
  · intro each
    rw [hcount, hrefs, card_holders_give hnone]
    by_cases heach : each = frame
    · subst heach
      have hcounted := hbalanced.counted each
      rw [update_self, if_pos rfl]
      omega
    · rw [update_of_ne heach, if_neg heach, Nat.add_zero]
      exact hbalanced.counted each
  · intro each heach
    have hne : each ≠ frame := fun heq => hnodup.1 (heq ▸ heach)
    rw [hcount, update_of_ne hne]
    exact hbalanced.unheld each (hfree ▸ List.mem_cons_of_mem frame heach)
  · intro other each hother hmark
    by_cases hsame : other = holder
    · rw [hrefs, hsame, update_self] at hother
      rw [← Option.some.inj hother, hcount, update_self]
    · rw [hrefs, update_of_ne hsame] at hother
      rw [hsole other hsame] at hmark
      have hne : each ≠ frame := fun heq => (hbalanced.count_pos hother).ne' (heq ▸ hzero)
      rw [hcount, update_of_ne hne]
      exact hbalanced.alone other each hother hmark

/-- A holder that is not a sole one shares its frame with another holder. -/
theorem share (hbalanced : Balanced pool) (hnone : pool.refs holder = none)
    (hother : pool.refs other = some frame) (hopen : pool.sole other = false)
    (hfree : next.free = pool.free)
    (hcount : next.count = update pool.count frame (pool.count frame + 1))
    (hrefs : next.refs = update pool.refs holder (some frame)) (hshared : next.sole holder = false)
    (hsole : ∀ each ≠ holder, next.sole each = pool.sole each) : Balanced next := by
  have hpos := hbalanced.count_pos hother
  refine ⟨?_, hfree ▸ hbalanced.nodup, ?_, ?_⟩
  · intro each
    rw [hcount, hrefs, card_holders_give hnone]
    have hcounted := hbalanced.counted each
    by_cases heach : each = frame
    · subst heach
      rw [update_self, if_pos rfl]
      omega
    · rw [update_of_ne heach, if_neg heach, Nat.add_zero]
      exact hcounted
  · intro each heach
    rw [hfree] at heach
    have hzero := hbalanced.unheld each heach
    have hne : each ≠ frame := fun heq => hpos.ne' (heq ▸ hzero)
    rw [hcount, update_of_ne hne, hzero]
  · intro each held heach hmark
    have hdiff : each ≠ holder := by
      rintro rfl
      rw [hshared] at hmark
      cases hmark
    rw [hrefs, update_of_ne hdiff] at heach
    rw [hsole each hdiff] at hmark
    have hone := hbalanced.alone each held heach hmark
    have hne : held ≠ frame := by
      rintro rfl
      rw [hbalanced.eq_of_sole heach hmark hother, hmark] at hopen
      cases hopen
    rw [hcount, update_of_ne hne, hone]

/-- Two holders exchange what they hold. -/
theorem exchange (hbalanced : Balanced pool) (hfree : next.free = pool.free)
    (hcount : next.count = pool.count) (hrefs : next.refs = pool.refs ∘ Equiv.swap holder other)
    (hone : ∀ each frame, each = holder ∨ each = other →
      next.refs each = some frame → next.sole each = true → pool.count frame = 1)
    (hsole : ∀ each, each ≠ holder → each ≠ other →
      next.sole each = pool.sole each) : Balanced next := by
  have hcard : ∀ frame, (holders next.refs frame).card = (holders pool.refs frame).card := by
    intro frame
    refine Finset.card_equiv (Equiv.swap holder other) ?_
    intro each
    rw [mem_holders, mem_holders, hrefs, comp_apply]
  refine ⟨?_, hfree ▸ hbalanced.nodup, ?_, ?_⟩
  · intro frame
    rw [hcount, hcard]
    exact hbalanced.counted frame
  · rw [hfree, hcount]
    exact hbalanced.unheld
  · intro each frame hheld hmark
    rw [hcount]
    by_cases heach : each = holder ∨ each = other
    · exact hone each frame heach hheld hmark
    · rw [not_or] at heach
      rw [hrefs, comp_apply, Equiv.swap_apply_of_ne_of_ne heach.1 heach.2] at hheld
      rw [hsole each heach.1 heach.2] at hmark
      exact hbalanced.alone each frame hheld hmark

/-- A holder gives its frame back; with the last holder it becomes free. -/
theorem drop (hbalanced : Balanced pool) (hheld : pool.refs holder = some frame)
    (hfree : next.free =
      if pool.count frame = 1 then frame :: pool.free else pool.free)
    (hcount : next.count = update pool.count frame (pool.count frame - 1))
    (hrefs : next.refs = update pool.refs holder none)
    (hsole : ∀ other ≠ holder, next.sole other = pool.sole other) : Balanced next := by
  have hcounted : ∀ each, next.count each = (holders next.refs each).card := by
    intro each
    have hcard := card_holders_drop hheld each
    have hbefore := hbalanced.counted each
    rw [hcount, hrefs]
    by_cases heach : each = frame
    · subst heach
      rw [if_pos rfl] at hcard
      rw [update_self]
      omega
    · rw [if_neg heach] at hcard
      rw [update_of_ne heach]
      omega
  refine ⟨hcounted, ?_, ?_, ?_⟩
  · rw [hfree]
    split
    · exact List.nodup_cons.mpr ⟨hbalanced.not_free hheld, hbalanced.nodup⟩
    · exact hbalanced.nodup
  · intro each heach
    by_cases hsame : each = frame
    · subst hsame
      rw [hfree] at heach
      split at heach
      · next hone => rw [hcount, update_self, hone, sub_self]
      · exact absurd heach (hbalanced.not_free hheld)
    · have hbefore : each ∈ pool.free := by
        rw [hfree] at heach
        split at heach
        · exact (List.mem_cons.mp heach).resolve_left hsame
        · exact heach
      rw [hcount, update_of_ne hsame]
      exact hbalanced.unheld each hbefore
  · intro other each hother hmark
    have hdiff : other ≠ holder := by
      rintro rfl
      rw [hrefs, update_self] at hother
      cases hother
    rw [hrefs, update_of_ne hdiff] at hother
    rw [hsole other hdiff] at hmark
    have hne : each ≠ frame := by
      rintro rfl
      exact hdiff (hbalanced.eq_of_sole hother hmark hheld).symm
    rw [hcount, update_of_ne hne]
    exact hbalanced.alone other each hother hmark

end Balanced

end RxOs.RefCount
