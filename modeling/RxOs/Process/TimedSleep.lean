import RxOs.Core.Transition

/-!
# Timed sleep

`sys_sleep` sleeps on channel 0 until the clock has advanced by the requested
number of ticks, and `clock_intr` advances the clock without waking anybody.  A
process whose time is over goes on sleeping until something else wakes channel 0
or kills it.
-/

namespace RxOs.TimedSleep

open Function Transition

/-- Where a process is in `sys_sleep`, with its `now_time` and `time_span`: not
in it, at the test of the loop with the lock of `TICKS`, in `sleep` with that
lock given up and the state not yet set, asleep, or woken up. -/
inductive Phase
  | outside
  | testing (start span : ℕ)
  | dozing (start span : ℕ)
  | sleeping (start span : ℕ)
  | runnable (start span : ℕ)
  deriving DecidableEq

structure State (Proc : Type) where
  ticks : ℕ
  locked : Bool
  phases : Proc → Phase
  killed : Proc → Bool

def State.new {Proc : Type} : State Proc where
  ticks := 0
  locked := false
  phases := fun _ => .outside
  killed := fun _ => false

/-- A process enters `sys_sleep` and takes the lock, runs to the next point where
it gives the lock up, falls asleep, or takes the lock again; the loop of
`wake_up` comes to the slot of a process; a process is killed; `clock_intr`, on
CPU 0 or on another one. -/
inductive Action (Proc : Type)
  | call (proc : Proc) (span : ℕ)
  | test (proc : Proc)
  | doze (proc : Proc)
  | resume (proc : Proc)
  | wake (channel : ℕ) (proc : Proc)
  | kill (proc : Proc)
  | clock (first : Bool)

variable {Proc : Type}

/-- The clock after `clock_intr`. -/
def advanced (ticks : ℕ) (first : Bool) : ℕ :=
  if first then ticks + 1 else ticks

section Steps

variable [DecidableEq Proc]

def State.move (state : State Proc) (proc : Proc) (phase : Phase) (locked : Bool) : State Proc :=
  { state with
    locked := locked
    phases := update state.phases proc phase }

def State.rouse (state : State Proc) (proc : Proc) : State Proc :=
  match state.phases proc with
  | .sleeping start span => state.move proc (.runnable start span) state.locked
  | _ => state

/-- The steps of the system.  A process in `sleep` has its own lock until it is
asleep, so `wake_up` and `kill` wait for that. -/
def step (state : State Proc) : Action Proc → Option (State Proc)
  | .call proc span =>
    if state.phases proc = .outside ∧ state.locked = false then
      some (state.move proc (.testing state.ticks span) true)
    else none
  | .test proc =>
    match state.phases proc with
    | .testing start span =>
      if state.ticks - start < span then
        if state.killed proc then
          some (state.move proc .outside false)
        else some (state.move proc (.dozing start span) false)
      else some (state.move proc .outside false)
    | _ => none
  | .doze proc =>
    match state.phases proc with
    | .dozing start span => some (state.move proc (.sleeping start span) state.locked)
    | _ => none
  | .resume proc =>
    match state.phases proc with
    | .runnable start span =>
      if state.locked then none
      else some (state.move proc (.testing start span) true)
    | _ => none
  | .wake channel proc =>
    match state.phases proc with
    | .dozing _ _ => none
    | _ => if channel = 0 then some (state.rouse proc) else some state
  | .kill proc =>
    match state.phases proc with
    | .dozing _ _ => none
    | _ =>
      some { state.rouse proc with
        killed := update state.killed proc true }
  | .clock first =>
    if state.locked then none
    else some { state with ticks := advanced state.ticks first }

end Steps

/-! ## Falling asleep and waking up -/

def Rouses (proc : Proc) (action : Action Proc) : Prop :=
  action = .kill proc ∨ action = .wake 0 proc

section Steps

variable [DecidableEq Proc] {state next last : State Proc}
  {record : List (State Proc × Action Proc)} {proc : Proc} {start span : ℕ}

theorem State.move_phases_of_ne {other : Proc} {phase : Phase} {locked : Bool}
    (hne : proc ≠ other) : (state.move other phase locked).phases proc = state.phases proc :=
  update_of_ne hne _ _

@[simp]
theorem State.move_phases_self {phase : Phase} {locked : Bool} :
    (state.move proc phase locked).phases proc = phase :=
  update_self _ _ _

theorem State.rouse_phases_iff {other : Proc} :
    (state.rouse other).phases proc = .sleeping start span ↔
      state.phases proc = .sleeping start span ∧ other ≠ proc := by
  by_cases hproc : other = proc
  · subst hproc
    unfold State.rouse
    split
    · simp
    · next hother =>
        exact ⟨fun hsleeping => (hother _ _ hsleeping).elim,
          fun hsleeping => (hsleeping.2 rfl).elim⟩
  · unfold State.rouse
    split
    · simp [State.move_phases_of_ne (Ne.symm hproc), hproc]
    · simp [hproc]

/-- The step of a process of its own, which is awake before it and falls asleep
only with `doze`. -/
theorem phases_of_move {action : Action Proc} {other : Proc} {phase : Phase}
    {locked : Bool} (hquiet : ¬Rouses proc action)
    (hawake : state.phases other ≠ .sleeping start span) (hphase : phase = .sleeping start span ↔
      action = .doze other ∧ state.phases other = .dozing start span)
    (hown : action = .doze proc → proc = other) :
    (state.move other phase locked).phases proc = .sleeping start span ↔
      (state.phases proc = .sleeping start span ∧ ¬Rouses proc action) ∨
        (action = .doze proc ∧ state.phases proc = .dozing start span) := by
  by_cases hproc : proc = other
  · subst hproc
    rw [State.move_phases_self, hphase]
    simp [hawake]
  · rw [State.move_phases_of_ne hproc]
    have hdoze : action ≠ .doze proc := fun hdoze => hproc (hown hdoze)
    simp [hquiet, hdoze]

/-- A process is asleep after a step exactly if it was and the step did not
rouse it, or if it fell asleep in it. -/
theorem phases_of_step {action : Action Proc} (hstep : step state action = some next) :
    next.phases proc = .sleeping start span ↔
      (state.phases proc = .sleeping start span ∧ ¬Rouses proc action) ∨
        (action = .doze proc ∧ state.phases proc = .dozing start span) := by
  cases action with
  | call other requested =>
    simp only [step, Option.ite_none_right_eq_some] at hstep
    obtain ⟨⟨houtside, -⟩, hnext⟩ := hstep
    cases hnext
    apply phases_of_move <;> simp [Rouses, houtside]
  | test other =>
    simp only [step] at hstep
    split at hstep
    · next hphase =>
        split at hstep
        · split at hstep <;> cases hstep <;> apply phases_of_move <;>
            simp [Rouses, hphase]
        · cases hstep
          apply phases_of_move <;> simp [Rouses, hphase]
    · cases hstep
  | doze other =>
    simp only [step] at hstep
    split at hstep
    · next hphase =>
        cases hstep
        apply phases_of_move <;> simp [Rouses, hphase]
        exact Eq.symm
    · cases hstep
  | resume other =>
    simp only [step] at hstep
    split at hstep
    · next hphase =>
        split at hstep <;> cases hstep
        apply phases_of_move <;> simp [Rouses, hphase]
    · cases hstep
  | wake channel other =>
    simp only [step] at hstep
    split at hstep
    · cases hstep
    · split at hstep <;> cases hstep
      · next hchannel =>
          rw [State.rouse_phases_iff]
          simp [Rouses, hchannel]
      · next hchannel => simp [Rouses, hchannel]
  | kill other =>
    simp only [step] at hstep
    split at hstep <;> cases hstep
    change (state.rouse other).phases proc = _ ↔ _
    rw [State.rouse_phases_iff]
    simp [Rouses]
  | clock first =>
    simp only [step] at hstep
    split at hstep <;> cases hstep
    simp [Rouses]

end Steps

/-! ## Punctuality -/

/-- Nobody is asleep whose time is over. -/
def Punctual (state : State Proc) : Prop :=
  ∀ proc start span, state.phases proc = .sleeping start span → state.ticks - start < span

/-- What is asked of a step: after `clock_intr` nobody oversleeps. -/
def Timely (action : Action Proc) (next : State Proc) : Prop :=
  match action with
  | .clock _ => Punctual next
  | _ => True

/-- Whoever fell asleep in a run was woken up on channel 0 or killed before the
tick that completes its time. -/
def Attended (record : List (State Proc × Action Proc)) : Prop :=
  ∀ before between after asleep state proc first start span,
    record = before ++ (asleep, .doze proc) :: (between ++ (state, .clock first) :: after) →
    asleep.phases proc = .dozing start span → span ≤ advanced state.ticks first - start →
    ∃ entry ∈ between, Rouses proc entry.2

section Runs

variable [DecidableEq Proc] {state next last : State Proc}
  {record : List (State Proc × Action Proc)} {proc : Proc} {start span : ℕ}

/-- A process stays asleep until it is roused, however long that takes: the
clock does not wake it. -/
theorem sleeping_of_run (hrun : Run step state record last)
    (hsleeping : state.phases proc = .sleeping start span)
    (hquiet : ∀ entry ∈ record, ¬Rouses proc entry.2) :
    last.phases proc = .sleeping start span := by
  have hkeep : ∀ state action next, state.phases proc = .sleeping start span → ¬Rouses proc action →
        step state action = some next →
          next.phases proc = .sleeping start span := fun _ _ _ hkept hquiet hstep =>
      (phases_of_step hstep).mpr (Or.inl ⟨hkept, hquiet⟩)
  exact (hrun.invariant hkeep hsleeping hquiet).1

/-- A process that is asleep fell asleep in some step, and nothing roused it
since. -/
theorem run_of_sleeping (hrun : Run step State.new record last)
    (hsleeping : last.phases proc = .sleeping start span) :
    ∃ before asleep between, record = before ++ (asleep, .doze proc) :: between ∧
        asleep.phases proc = .dozing start span ∧ ∀ entry ∈ between, ¬Rouses proc entry.2 := by
  induction record using List.reverseRecOn generalizing last with
  | nil =>
    cases hrun
    cases hsleeping
  | append_singleton record entry ih =>
    obtain ⟨middle, hleft, hright⟩ := hrun.split
    cases hright with
    | @step _ _ _ action _ hstep hrest =>
      cases hrest
      rcases (phases_of_step hstep).mp hsleeping with
        ⟨hmiddle, hquiet⟩ | ⟨rfl, hdozing⟩
      · obtain ⟨before, asleep, between, rfl, hdozing, hbetween⟩ := ih hleft hmiddle
        refine ⟨before, asleep, between ++ [(middle, action)], by simp, hdozing, ?_⟩
        intro entry hentry
        rcases List.mem_append.mp hentry with hold | hnew
        · exact hbetween entry hold
        · rw [List.mem_singleton.mp hnew]
          exact hquiet
      · exact ⟨record, middle, [], rfl, hdozing, nofun⟩

theorem step_clock {first : Bool} (hstep : step state (.clock first) = some next) :
    next = { state with ticks := advanced state.ticks first } := by
  simp only [step] at hstep
  split at hstep <;> cases hstep
  rfl

/-- No process oversleeps a tick of a run exactly if whoever fell asleep in it
was woken up on channel 0 or killed before the tick that completes its time. -/
theorem run_punctual_iff (hrun : Run step State.new record last) :
    (∀ entry ∈ record, ∀ next, step entry.1 entry.2 = some next →
        Timely entry.2 next) ↔ Attended record := by
  constructor
  · intro htimely before between after asleep state proc first start span hrecord hdozing hcomplete
    subst hrecord
    obtain ⟨middle, -, hfrom⟩ := hrun.split
    cases hfrom with
    | step hdoze hrest =>
      obtain ⟨middle, hbetween, hafter⟩ := hrest.split
      cases hafter with
      | step hclock _ =>
        by_contra hquiet
        have hsleeping := sleeping_of_run hbetween
          ((phases_of_step hdoze).mpr (Or.inr ⟨rfl, hdozing⟩))
          fun entry hentry hrouses => hquiet ⟨entry, hentry, hrouses⟩
        have hpunctual := htimely (state, .clock first) (by simp) _ hclock
        rw [step_clock hclock] at hpunctual
        have hearly := hpunctual proc start span hsleeping
        exact absurd hcomplete (not_le.mpr hearly)
  · rintro hattended ⟨state, action⟩ hentry next hnext
    cases action with
    | clock first =>
      intro proc start span hsleeping
      rw [step_clock hnext] at hsleeping ⊢
      by_contra hlate
      obtain ⟨left, after, rfl⟩ := List.append_of_mem hentry
      obtain ⟨middle, hleft, hright⟩ := hrun.split
      cases hright with
      | step =>
        obtain ⟨before, asleep, between, rfl, hdozing, hquiet⟩ := run_of_sleeping hleft hsleeping
        obtain ⟨entry, hmem, hrouses⟩ := hattended before between after
          asleep _ proc first start span (by simp) hdozing (not_lt.mp hlate)
        exact hquiet entry hmem hrouses
    | _ => trivial

end Runs

/-- A process asks for a tick and is killed before it. -/
def interrupted : List (Action Unit) :=
  [.call () 1, .test (), .doze (), .kill (), .clock true]

theorem run_punctual_iff_interrupted : ∃ record last,
    Run step State.new record last ∧ record.map Prod.snd = interrupted ∧
      ∀ entry ∈ record, ∀ next, step entry.1 entry.2 = some next → Timely entry.2 next := by
  have hsome : (interrupted.foldlM step State.new).isSome = true := by decide +kernel
  obtain ⟨last, hfold⟩ := Option.isSome_iff_exists.mp hsome
  obtain ⟨record, hrun, hactions⟩ := Run.of_foldlM hfold
  refine ⟨record, last, hrun, hactions, (run_punctual_iff hrun).mpr ?_⟩
  intro before between after asleep state proc first start span hrecord _ _
  -- The only tick comes after the process was killed.
  have hkilled : .kill () ∈ between.map Prod.snd := by
    subst hrecord
    simp only [List.map_append, List.map_cons, interrupted] at hactions
    generalize before.map Prod.snd = before at hactions
    generalize between.map Prod.snd = between at hactions ⊢
    rcases before with _ | ⟨_, _ | ⟨_, _ | ⟨_, _ | ⟨_, _ | ⟨_, before⟩⟩⟩⟩⟩ <;>
      simp at hactions
    rcases between with _ | ⟨_, between⟩ <;> simp at hactions ⊢
    exact Or.inl hactions.2.2.1.symm
  obtain ⟨entry, hentry, hkill⟩ := List.mem_map.mp hkilled
  exact ⟨entry, hentry, Or.inl hkill⟩

/-- A process asks for one tick and is still asleep after it. -/
theorem not_run_punctual :
    ¬∀ record (last : State Unit), Run step State.new record last →
      ∀ entry ∈ record, ∀ next, step entry.1 entry.2 = some next → Timely entry.2 next := by
  intro hall
  have hsome : (([.call () 1, .test (), .doze ()] : List (Action Unit)).foldlM
      step State.new).any (fun middle => middle.phases () = .sleeping 0 1 ∧ middle.ticks = 0 ∧
          middle.locked = false) = true := by decide +kernel
  obtain ⟨record, middle, hrun, -, hsleeping, hticks, hlocked⟩ := Run.of_any hsome
  have hstep : step middle (.clock true) = some { middle with ticks := middle.ticks + 1 } := by
    simp [step, hlocked, advanced]
  have hpunctual := hall _ _ (hrun.concat hstep) (middle, .clock true)
    (List.mem_append_right _ List.mem_cons_self) _ hstep
  have hearly := hpunctual () 0 1 hsleeping
  simp [hticks] at hearly

end RxOs.TimedSleep
