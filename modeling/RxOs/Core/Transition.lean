import Mathlib

/-!
# Runs of labelled transition systems

A system is a partial step function: `step state action` is the next state, or
`none` when the action is not possible.  A run records every state it passes
through together with the action taken there, so that a condition on the steps
of a run is a condition on the entries of its record.
-/

namespace RxOs.Transition

/-- Systems of two or three parties number them from zero. -/
instance neZero_two : NeZero 2 := ⟨two_ne_zero⟩

instance neZero_three : NeZero 3 := ⟨three_ne_zero⟩

variable {State Action : Type*}

/-- `Run step first record last`: the actions of `record`, taken one after the
other from `first`, lead to `last`. -/
inductive Run (step : State → Action → Option State) :
    State → List (State × Action) → State → Prop
  | done (state : State) : Run step state [] state
  | step {first next last : State} {action : Action}
      {record : List (State × Action)} (hstep : step first action = some next)
      (hrest : Run step next record last) :
      Run step first ((first, action) :: record) last

variable {step : State → Action → Option State}

/-- An invariant that every admitted step keeps holds in each state of a run
of admitted steps, its last state included. -/
theorem Run.invariant {invariant : State → Prop} {admitted : State → Action → Prop}
    (hkeep : ∀ state action next, invariant state → admitted state action →
      step state action = some next → invariant next)
    {first last : State} {record : List (State × Action)}
    (hrun : Run step first record last) (hfirst : invariant first)
    (hadmitted : ∀ entry ∈ record, admitted entry.1 entry.2) :
    invariant last ∧ ∀ entry ∈ record, invariant entry.1 := by
  induction hrun with
  | done => simpa using hfirst
  | step hstep _ ih =>
    have hnext := hkeep _ _ _ hfirst (hadmitted _ List.mem_cons_self) hstep
    obtain ⟨hlast, hrecord⟩ := ih hnext
      fun entry hentry => hadmitted entry (List.mem_cons_of_mem _ hentry)
    refine ⟨hlast, ?_⟩
    intro entry hentry
    rcases List.mem_cons.mp hentry with rfl | htail
    · exact hfirst
    · exact hrecord entry htail

theorem Run.always {invariant : State → Prop}
    (hkeep : ∀ state action next, invariant state → step state action = some next → invariant next)
    {first last : State} {record : List (State × Action)}
    (hrun : Run step first record last) (hfirst : invariant first) :
    invariant last ∧ ∀ entry ∈ record, invariant entry.1 := by
  have hadmitted : ∀ state action next, invariant state → True →
      step state action = some next → invariant next :=
    fun _ _ _ hstate _ => hkeep _ _ _ hstate
  exact hrun.invariant hadmitted hfirst fun _ _ => trivial

/-- A property that a step keeps exactly when the step is admitted holds in all
states of a run exactly when all its steps are admitted. -/
theorem Run.holds_iff {invariant property : State → Prop} {admitted : State → Action → Prop}
    (hkeep : ∀ state action next, invariant state → admitted state action →
      step state action = some next → invariant next)
    (hstep : ∀ state action next, invariant state → property state → step state action = some next →
        (property next ↔ admitted state action))
    {first last : State} {record : List (State × Action)}
    (hrun : Run step first record last) (hfirst : invariant first) (hholds : property first) :
    (property last ∧ ∀ entry ∈ record, property entry.1) ↔
      ∀ entry ∈ record, admitted entry.1 entry.2 := by
  induction hrun with
  | done => simpa using hholds
  | @step first next last action record hnext hrest ih =>
    have hadmitted := hstep first action next hfirst hholds hnext
    have hinvariant := fun hhead : admitted first action =>
      hkeep first action next hfirst hhead hnext
    rw [List.forall_mem_cons, List.forall_mem_cons]
    constructor
    · rintro ⟨hlast, -, hrecord⟩
      have hproperty : property next := by
        cases hrest with
        | done => exact hlast
        | step => exact hrecord _ List.mem_cons_self
      have hhead := hadmitted.mp hproperty
      exact ⟨hhead, (ih (hinvariant hhead) hproperty).mp ⟨hlast, hrecord⟩⟩
    · rintro ⟨hhead, htail⟩
      obtain ⟨hlast, hrecord⟩ := (ih (hinvariant hhead) (hadmitted.mpr hhead)).mpr htail
      exact ⟨hlast, hholds, hrecord⟩

/-- An invariant that relates the states to what is remembered of the steps
taken so far. -/
theorem Run.remembers {Memory : Type*} {invariant : Memory → State → Prop}
    {admitted : State → Action → Prop} {remember : Memory → State × Action → Memory}
    (hkeep : ∀ memory state action next, invariant memory state →
      admitted state action → step state action = some next →
        invariant (remember memory (state, action)) next)
    {first last : State} {record : List (State × Action)} {memory : Memory}
    (hrun : Run step first record last) (hfirst : invariant memory first)
    (hadmitted : ∀ entry ∈ record, admitted entry.1 entry.2) :
    invariant (record.foldl remember memory) last := by
  induction hrun generalizing memory with
  | done => exact hfirst
  | step hstep _ ih =>
    have hnext := hkeep _ _ _ _ hfirst (hadmitted _ List.mem_cons_self) hstep
    exact ih hnext fun entry hentry => hadmitted entry (List.mem_cons_of_mem _ hentry)

/-- What the actions of a run add to a quantity and take from it. -/
theorem Run.ledger {invariant : State → Prop} {admitted : State → Action → Prop}
    {value : State → ℕ} {gain loss : Action → ℕ}
    (hkeep : ∀ state action next, invariant state → admitted state action →
      step state action = some next → invariant next)
    (hvalue : ∀ state action next, invariant state → admitted state action →
      step state action = some next → value next + loss action = value state + gain action)
    {first last : State} {record : List (State × Action)}
    (hrun : Run step first record last) (hfirst : invariant first)
    (hadmitted : ∀ entry ∈ record, admitted entry.1 entry.2) :
    value last + (record.map fun entry => loss entry.2).sum =
      value first + (record.map fun entry => gain entry.2).sum := by
  induction hrun with
  | done => rfl
  | step hstep _ ih =>
    have hhead := hadmitted _ List.mem_cons_self
    have hrest := ih (hkeep _ _ _ hfirst hhead hstep)
      fun entry hentry => hadmitted entry (List.mem_cons_of_mem _ hentry)
    have hone := hvalue _ _ _ hfirst hhead hstep
    rw [List.map_cons, List.map_cons, List.sum_cons, List.sum_cons]
    omega

/-- What the steps of a run put into a queue comes out of it in the same order;
what has not come out yet is in it at the end. -/
theorem Run.queue {Item : Type*} {invariant : State → Prop}
    {queue : State → List Item} {put take : State × Action → List Item}
    (hkeep : ∀ state action next, invariant state → step state action = some next → invariant next)
    (hqueue : ∀ state action next, invariant state → step state action = some next →
        queue state ++ put (state, action) = take (state, action) ++ queue next)
    {first last : State} {record : List (State × Action)}
    (hrun : Run step first record last) (hfirst : invariant first) :
    queue first ++ record.flatMap put = record.flatMap take ++ queue last := by
  induction hrun with
  | done => simp
  | @step first next last action record hstep _ ih =>
    rw [List.flatMap_cons, List.flatMap_cons, ← List.append_assoc,
      hqueue first action next hfirst hstep, List.append_assoc,
      ih (hkeep first action next hfirst hstep), List.append_assoc]

/-- A run passes through a state between two parts of its record. -/
theorem Run.split {first last : State} {left right : List (State × Action)}
    (hrun : Run step first (left ++ right) last) :
    ∃ middle, Run step first left middle ∧ Run step middle right last := by
  induction left generalizing first with
  | nil => exact ⟨first, Run.done first, hrun⟩
  | cons entry left ih =>
    cases hrun with
    | step hstep hrest =>
      obtain ⟨middle, hleft, hright⟩ := ih hrest
      exact ⟨middle, Run.step hstep hleft, hright⟩

theorem Run.append {first middle last : State}
    {left right : List (State × Action)} (hleft : Run step first left middle)
    (hright : Run step middle right last) : Run step first (left ++ right) last := by
  induction hleft with
  | done => exact hright
  | step hstep _ ih => exact Run.step hstep (ih hright)

theorem Run.concat {first middle last : State} {action : Action}
    {record : List (State × Action)} (hrun : Run step first record middle)
    (hstep : step middle action = some last) : Run step first (record ++ [(middle, action)]) last :=
  hrun.append (Run.step hstep (Run.done last))

/-- Every action of the record was possible where it was taken. -/
theorem Run.step_of_mem {first last : State} {record : List (State × Action)}
    (hrun : Run step first record last) {entry : State × Action}
    (hentry : entry ∈ record) : ∃ next, step entry.1 entry.2 = some next := by
  induction hrun with
  | done => cases hentry
  | step hstep _ ih =>
    rcases List.mem_cons.mp hentry with rfl | htail
    · exact ⟨_, hstep⟩
    · exact ih htail

section Execution

variable {admitted : State → Action → Prop} [∀ state action, Decidable (admitted state action)]

/-- The admitted steps of a system. -/
def guarded (admitted : State → Action → Prop) [∀ state action, Decidable (admitted state action)]
    (step : State → Action → Option State) (state : State) (action : Action) : Option State :=
  if admitted state action then step state action else none

variable {property : State → Prop} [DecidablePred property] {first last : State}
variable {actions : List Action}

/-- Executing a list of actions, each of them admitted, produces a run of
them. -/
theorem Run.of_foldlM_admitted
    (hfold : actions.foldlM (guarded admitted step) first = some last) :
    ∃ record, Run step first record last ∧ record.map Prod.snd = actions ∧
      ∀ entry ∈ record, admitted entry.1 entry.2 := by
  induction actions generalizing first with
  | nil =>
    obtain rfl : first = last := by simpa using hfold
    exact ⟨[], Run.done first, rfl, nofun⟩
  | cons action actions ih =>
    rw [List.foldlM_cons, guarded] at hfold
    split at hfold
    · next hadmitted =>
        cases hstep : step first action with
        | none => simp [hstep] at hfold
        | some next =>
          rw [hstep] at hfold
          obtain ⟨record, hrun, hactions, hrecord⟩ := ih hfold
          refine ⟨(first, action) :: record, Run.step hstep hrun,
            congrArg (action :: ·) hactions, ?_⟩
          exact List.forall_mem_cons.mpr ⟨hadmitted, hrecord⟩
    · cases hfold

theorem Run.of_foldlM (hfold : actions.foldlM step first = some last) :
    ∃ record, Run step first record last ∧ record.map Prod.snd = actions := by
  have hguarded : guarded (fun _ _ => True) step = step := by
    funext state action
    exact if_pos trivial
  rw [← hguarded] at hfold
  obtain ⟨record, hrun, hactions, -⟩ := Run.of_foldlM_admitted hfold
  exact ⟨record, hrun, hactions⟩

/-- Executing a list of actions up to a state that passes a test. -/
theorem Run.of_any (hany : (actions.foldlM step first).any (property ·) = true) :
    ∃ record last, Run step first record last ∧ record.map Prod.snd = actions ∧ property last := by
  obtain ⟨last, hfold, hlast⟩ := (Option.any_eq_true _ _).mp hany
  obtain ⟨record, hrun, hactions⟩ := Run.of_foldlM hfold
  exact ⟨record, last, hrun, hactions, of_decide_eq_true hlast⟩

theorem Run.of_any_admitted
    (hany : (actions.foldlM (guarded admitted step) first).any (property ·) = true) :
    ∃ record last, Run step first record last ∧ record.map Prod.snd = actions ∧
      (∀ entry ∈ record, admitted entry.1 entry.2) ∧ property last := by
  obtain ⟨last, hfold, hlast⟩ := (Option.any_eq_true _ _).mp hany
  obtain ⟨record, hrun, hactions, hadmitted⟩ := Run.of_foldlM_admitted hfold
  exact ⟨record, last, hrun, hactions, hadmitted, of_decide_eq_true hlast⟩

end Execution

end RxOs.Transition
