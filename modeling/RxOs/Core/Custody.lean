import Mathlib

/-!
# Custody

Agents are at places, and at some of its places an agent has a slot in its
custody.  A slot is in the custody of at most one agent; what it looks like then
depends on the place, and a slot that nobody has is at rest.
-/

namespace RxOs.Custody

open Function

variable {Agent Place Slot Value : Type*}
variable {has : Place → Option Slot} {fits : Agent → Place → Value → Prop}
variable {resting : Value → Prop}

/-- Every slot is in the custody of one agent or at rest. -/
structure Entrusted (has : Place → Option Slot)
    (fits : Agent → Place → Value → Prop) (resting : Value → Prop)
    (places : Agent → Place) (values : Slot → Value) : Prop where
  own : ∀ left right slot, has (places left) = some slot →
    has (places right) = some slot → left = right
  fits : ∀ agent slot, has (places agent) = some slot → fits agent (places agent) (values slot)
  rest : ∀ slot, (∀ agent, has (places agent) ≠ some slot) → resting (values slot)

variable {places : Agent → Place} {values : Slot → Value}
variable {agent : Agent} {slot : Slot} {place : Place} {value : Value}

theorem Entrusted.free_of_not_fits (hcustody : Entrusted has fits resting places values)
    (hfits : ∀ agent place, has place = some slot →
      ¬fits agent place (values slot)) (agent : Agent) : has (places agent) ≠ some slot :=
  fun hhas => hfits agent (places agent) hhas (hcustody.fits agent slot hhas)

variable [DecidableEq Agent] [DecidableEq Slot]

omit [DecidableEq Slot] in
theorem has_update (hplace : has place = has (places agent)) (other : Agent) :
    has (update places agent place other) = has (places other) := by
  by_cases hother : other = agent
  · rw [hother, update_self, hplace]
  · rw [update_of_ne hother]

/-- An agent moves and keeps the slot it has. -/
theorem Entrusted.move (hcustody : Entrusted has fits resting places values)
    (hhas : has (places agent) = some slot) (hplace : has place = some slot)
    (hfits : fits agent place value) :
    Entrusted has fits resting (update places agent place) (update values slot value) := by
  have hsame := has_update (hplace.trans hhas.symm)
  refine ⟨?_, ?_, ?_⟩
  · intro left right other hleft hright
    rw [hsame] at hleft hright
    exact hcustody.own left right other hleft hright
  · intro other taken htaken
    rw [hsame] at htaken
    by_cases hother : other = agent
    · rw [hother] at htaken ⊢
      obtain rfl := Option.some.inj (hhas.symm.trans htaken)
      rwa [update_self, update_self]
    · have hne : taken ≠ slot := by
        rintro rfl
        exact hother (hcustody.own other agent taken htaken hhas)
      rw [update_of_ne hother, update_of_ne hne]
      exact hcustody.fits other taken htaken
  · intro other hfree
    have hne : other ≠ slot := by
      rintro rfl
      exact hfree agent ((hsame agent).trans hhas)
    rw [update_of_ne hne]
    exact hcustody.rest other fun holder => (hsame holder).symm.trans_ne (hfree holder)

/-- An agent without a slot takes one that is at rest. -/
theorem Entrusted.take (hcustody : Entrusted has fits resting places values)
    (hnone : has (places agent) = none) (hfree : ∀ other, has (places other) ≠ some slot)
    (hplace : has place = some slot) (hfits : fits agent place value) :
    Entrusted has fits resting (update places agent place) (update values slot value) := by
  have hothers : ∀ other taken, has (update places agent place other) =
      some taken → (other = agent ∧ taken = slot) ∨
        (other ≠ agent ∧ taken ≠ slot ∧ has (places other) = some taken) := by
    intro other taken htaken
    by_cases hother : other = agent
    · rw [hother, update_self, hplace] at htaken
      exact Or.inl ⟨hother, (Option.some.inj htaken).symm⟩
    · rw [update_of_ne hother] at htaken
      refine Or.inr ⟨hother, ?_, htaken⟩
      rintro rfl
      exact hfree other htaken
  refine ⟨?_, ?_, ?_⟩
  · intro left right taken hleft hright
    rcases hothers left taken hleft with ⟨rfl, rfl⟩ | ⟨-, hne, hleft⟩
    · rcases hothers right taken hright with ⟨rfl, -⟩ | ⟨-, hne, -⟩
      · rfl
      · exact absurd rfl hne
    · rcases hothers right taken hright with ⟨-, rfl⟩ | ⟨-, -, hright⟩
      · exact absurd rfl hne
      · exact hcustody.own left right taken hleft hright
  · intro other taken htaken
    rcases hothers other taken htaken with ⟨rfl, rfl⟩ | ⟨hother, hne, hbefore⟩
    · rwa [update_self, update_self]
    · rw [update_of_ne hother, update_of_ne hne]
      exact hcustody.fits other taken hbefore
  · intro other hnobody
    have hne : other ≠ slot := by
      rintro rfl
      refine hnobody agent ?_
      rw [update_self, hplace]
    rw [update_of_ne hne]
    refine hcustody.rest other fun holder hholder => ?_
    have hholder' : holder ≠ agent := by
      rintro rfl
      rw [hnone] at hholder
      cases hholder
    refine hnobody holder ?_
    rwa [update_of_ne hholder']

/-- An agent lets go of its slot. -/
theorem Entrusted.give (hcustody : Entrusted has fits resting places values)
    (hhas : has (places agent) = some slot) (hplace : has place = none) (hresting : resting value) :
    Entrusted has fits resting (update places agent place) (update values slot value) := by
  have hothers : ∀ other taken, has (update places agent place other) =
      some taken → other ≠ agent ∧ taken ≠ slot ∧ has (places other) = some taken := by
    intro other taken htaken
    have hother : other ≠ agent := by
      rintro rfl
      rw [update_self, hplace] at htaken
      cases htaken
    rw [update_of_ne hother] at htaken
    refine ⟨hother, ?_, htaken⟩
    rintro rfl
    exact hother (hcustody.own other agent taken htaken hhas)
  refine ⟨?_, ?_, ?_⟩
  · intro left right taken hleft hright
    exact hcustody.own left right taken (hothers left taken hleft).2.2
      (hothers right taken hright).2.2
  · intro other taken htaken
    obtain ⟨hother, hne, hbefore⟩ := hothers other taken htaken
    rw [update_of_ne hother, update_of_ne hne]
    exact hcustody.fits other taken hbefore
  · intro other hnobody
    by_cases hother : other = slot
    · rwa [hother, update_self]
    · rw [update_of_ne hother]
      refine hcustody.rest other fun holder hholder => ?_
      have hholder' : holder ≠ agent := by
        rintro rfl
        exact hother (Option.some.inj (hholder.symm.trans hhas))
      refine hnobody holder ?_
      rwa [update_of_ne hholder']

omit [DecidableEq Slot] in
/-- An agent without a slot moves. -/
theorem Entrusted.stroll (hcustody : Entrusted has fits resting places values)
    (hnone : has (places agent) = none) (hplace : has place = none) :
    Entrusted has fits resting (update places agent place) values := by
  have hsame := has_update (hplace.trans hnone.symm)
  refine ⟨?_, ?_, ?_⟩
  · intro left right taken hleft hright
    rw [hsame] at hleft hright
    exact hcustody.own left right taken hleft hright
  · intro other taken htaken
    have hother : other ≠ agent := by
      rintro rfl
      rw [update_self, hplace] at htaken
      cases htaken
    rw [hsame] at htaken
    rw [update_of_ne hother]
    exact hcustody.fits other taken htaken
  · intro other hnobody
    exact hcustody.rest other fun holder => (hsame holder).symm.trans_ne (hnobody holder)

omit [DecidableEq Agent] in
/-- Somebody changes a slot that nobody has. -/
theorem Entrusted.touch (hcustody : Entrusted has fits resting places values)
    (hfree : ∀ other, has (places other) ≠ some slot) (hresting : resting value) :
    Entrusted has fits resting places (update values slot value) := by
  refine ⟨hcustody.own, ?_, ?_⟩
  · intro other taken htaken
    have hne : taken ≠ slot := by
      rintro rfl
      exact hfree other htaken
    rw [update_of_ne hne]
    exact hcustody.fits other taken htaken
  · intro other hnobody
    by_cases hother : other = slot
    · rwa [hother, update_self]
    · rw [update_of_ne hother]
      exact hcustody.rest other hnobody

end RxOs.Custody
