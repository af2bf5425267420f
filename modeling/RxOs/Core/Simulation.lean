import RxOs.Core.Transition

/-!
# Simulation of one machine by another

Machines that answer each action with an output.  A run of such a machine
records the outputs with the actions; a relation between the states of two
machines that every action keeps, with the same output on both sides, carries
the runs of the one over to runs of the other with the same record.
-/

namespace RxOs.Simulation

open Transition

variable {State Other Action Output : Type*} [DecidableEq Output]

/-- The transition system of the actions together with their outputs. -/
def observed (perform : State → Action → Option (State × Output))
    (state : State) (event : Action × Output) : Option State :=
  match perform state event.1 with
  | none => none
  | some (next, output) => if output = event.2 then some next else none

theorem observed_eq_some {perform : State → Action → Option (State × Output)} {state next : State}
    {event : Action × Output} :
    observed perform state event = some next ↔ perform state event.1 = some (next, event.2) := by
  unfold observed
  split
  · next hnone => simp [hnone]
  · next found output hfound =>
      rw [hfound]
      by_cases houtput : output = event.2 <;> simp [houtput]

def events (record : List (State × Action × Output)) : List (Action × Output) :=
  record.map Prod.snd

/-- A relation that all actions keep carries runs over. -/
theorem Run.simulated {perform : State → Action → Option (State × Output)}
    {reference : Other → Action → Option (Other × Output)} {relation : State → Other → Prop}
    (hkeep : ∀ state other action next output, relation state other →
      perform state action = some (next, output) →
        ∃ after, reference other action = some (after, output) ∧ relation next after)
    {first last : State} {record : List (State × Action × Output)}
    (hrun : Run (observed perform) first record last) {other : Other}
    (hfirst : relation first other) :
    ∃ after carried, Run (observed reference) other carried after ∧
      events carried = events record ∧ relation last after := by
  induction hrun generalizing other with
  | done state => exact ⟨other, [], Run.done other, rfl, hfirst⟩
  | @step first next last event record hstep _ ih =>
    obtain ⟨middle, hmiddle, hrelated⟩ := hkeep _ _ _ _ _ hfirst (observed_eq_some.mp hstep)
    obtain ⟨after, carried, hcarried, hevents, hlast⟩ := ih hrelated
    exact ⟨after, (other, event) :: carried, Run.step (observed_eq_some.mpr hmiddle) hcarried,
      congrArg (event :: ·) hevents, hlast⟩

end RxOs.Simulation
