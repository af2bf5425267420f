import RxOs.Core.Transition

/-!
# The interrupt-enable flag of a kernel thread

`push_off` keeps in the CPU whether interrupts were enabled before, and `sched`
carries that flag over the time that the thread is switched out.  It takes the CPU
before the switch and writes the flag to it after the switch, when the thread may
be running on another one.  The flag follows the thread exactly when every return
from `sched` is on the CPU of the call, or finds the flag where it belongs anyway.
-/

namespace RxOs.InterruptFlag

open Function Transition

/-- What `CPU` keeps for `push_off`, and the interrupt enable of the hart. -/
structure Cpu where
  noff : ℕ
  intena : Bool
  interrupts : Bool
  deriving DecidableEq

def pushOff (cpu : Cpu) : Cpu where
  noff := cpu.noff + 1
  intena := if cpu.noff = 0 then cpu.interrupts else cpu.intena
  interrupts := false

/-- `pop_off`; it panics if interrupts are enabled or the counts do not match. -/
def popOff (cpu : Cpu) : Option Cpu :=
  if cpu.interrupts ∨ cpu.noff = 0 then none
  else some
    { cpu with
      noff := cpu.noff - 1
      interrupts := decide (cpu.noff - 1 = 0) && cpu.intena }

/-- What a hart executes: a place in the loop of `scheduler`, or a thread. -/
inductive Role (Thread : Type)
  | looping
  | seeking
  /-- An interrupt has come in `seek_runnable`. -/
  | trapped
  /-- `seek_runnable`, or the handler of the interrupt, has a lock. -/
  | probing (trapped : Bool)
  | locked
  | dropping
  | thread (thread : Thread)
  deriving DecidableEq

/-- Where a thread is: it has not run yet, it is switched out in `sched` with the
CPU and the flag in local variables, it has been switched to and is about to
write the flag, or it runs. -/
inductive Place (Hart : Type)
  | fresh
  | parked (home : Hart) (intena : Bool)
  | returning (home : Hart) (intena : Bool)
  | running
  deriving DecidableEq

/-- The harts and the threads.  `before` is whether interrupts were enabled
before the outermost `push_off` of a thread. -/
structure State (Hart Thread : Type) where
  cpus : Hart → Cpu
  roles : Hart → Role Thread
  places : Thread → Place Hart
  before : Thread → Bool

def State.new {Hart Thread : Type} : State Hart Thread where
  cpus := fun _ => ⟨0, false, false⟩
  roles := fun _ => .looping
  places := fun _ => .fresh
  before := fun _ => false

/-- Steps of a hart: `intr_on`, the lock of the process, the switch to it and
the drop of the lock in `scheduler`; the write of the flag at the end of `sched`;
`push_off`, `pop_off`, interrupts enabled or disabled outside of them, also by an
interrupt and the return from it; and `sched` up to the switch, in a thread. -/
inductive Move (Thread : Type)
  | intrOn
  | lock
  | enter (thread : Thread)
  | drop
  | restore
  | push
  | pop
  | toggle (enabled : Bool)
  | sched

variable {Hart Thread : Type}

section Steps

variable [DecidableEq Hart] [DecidableEq Thread]

/-- The steps of `scheduler` on a hart. -/
def schedule (state : State Hart Thread) (hart : Hart) (role : Role Thread)
    (move : Move Thread) : Option (State Hart Thread) :=
  match role, move with
  -- a search that has found nothing starts over
  | .looping, .intrOn | .seeking, .intrOn | .trapped, .toggle true =>
    some { state with
      cpus := update state.cpus hart { state.cpus hart with interrupts := true }
      roles := update state.roles hart .seeking }
  | .seeking, .toggle false =>
    if (state.cpus hart).interrupts then
      some { state with
        cpus := update state.cpus hart { state.cpus hart with interrupts := false }
        roles := update state.roles hart .trapped }
    else none
  | .seeking, .push =>
    some { state with
      cpus := update state.cpus hart (pushOff (state.cpus hart))
      roles := update state.roles hart (.probing false) }
  | .trapped, .push =>
    some { state with
      cpus := update state.cpus hart (pushOff (state.cpus hart))
      roles := update state.roles hart (.probing true) }
  | .probing trapped, .pop =>
    (popOff (state.cpus hart)).map fun cpu =>
      { state with
        cpus := update state.cpus hart cpu
        roles := update state.roles hart (if trapped then .trapped else .seeking) }
  | .seeking, .lock =>
    some { state with
      cpus := update state.cpus hart (pushOff (state.cpus hart))
      roles := update state.roles hart .locked }
  | .locked, .enter thread =>
    match state.places thread with
    | .fresh =>
      -- `fork_ret` goes on with the lock that the scheduler took
      some { state with
        roles := update state.roles hart (.thread thread)
        places := update state.places thread .running
        before := update state.before thread (state.cpus hart).intena }
    | .parked home intena =>
      some { state with
        roles := update state.roles hart (.thread thread)
        places := update state.places thread (.returning home intena) }
    | _ => none
  | .dropping, .drop =>
    (popOff (state.cpus hart)).map fun cpu =>
      { state with
        cpus := update state.cpus hart cpu
        roles := update state.roles hart .looping }
  | _, _ => none

def execute (state : State Hart Thread) (hart : Hart) (thread : Thread)
    (move : Move Thread) : Option (State Hart Thread) :=
  match state.places thread, move with
  | .returning home intena, .restore =>
    some { state with
      cpus := update state.cpus home { state.cpus home with intena := intena }
      places := update state.places thread .running }
  | .running, .push =>
    some { state with
      cpus := update state.cpus hart (pushOff (state.cpus hart))
      before :=
        if (state.cpus hart).noff = 0 then
          update state.before thread (state.cpus hart).interrupts
        else state.before }
  | .running, .pop =>
    (popOff (state.cpus hart)).map fun cpu => { state with cpus := update state.cpus hart cpu }
  | .running, .toggle enabled =>
    if (state.cpus hart).noff = 0 then
      some { state with
        cpus := update state.cpus hart { state.cpus hart with interrupts := enabled } }
    else none
  | .running, .sched =>
    if (state.cpus hart).noff = 1 ∧ (state.cpus hart).interrupts = false then
      some { state with
        roles := update state.roles hart .dropping
        places := update state.places thread (.parked hart (state.cpus hart).intena) }
    else none
  | _, _ => none

def step (state : State Hart Thread) (action : Hart × Move Thread) : Option (State Hart Thread) :=
  match state.roles action.1 with
  | .thread thread => execute state action.1 thread action.2
  | role => schedule state action.1 role action.2

end Steps

/-! ## What the flag is for -/

/-- A return from `sched` leaves its value in the CPU that the thread is now on
and touches no other CPU; the outermost `pop_off` of a thread restores
interrupts as they were. -/
def Follows (state : State Hart Thread) (action : Hart × Move Thread)
    (next : State Hart Thread) : Prop :=
  match action.2 with
  | .restore => ∀ thread home intena, state.roles action.1 = .thread thread →
      state.places thread = .returning home intena → (next.cpus action.1).intena = intena ∧
          ∀ other, other ≠ action.1 → next.cpus other = state.cpus other
  | .pop => ∀ thread, state.roles action.1 = .thread thread → (state.cpus action.1).noff = 1 →
        (next.cpus action.1).interrupts = state.before thread
  | _ => True

/-- A return from `sched` is on the CPU of the call, or both CPUs have the value
already. -/
def Admitted (state : State Hart Thread) (action : Hart × Move Thread) : Prop :=
  match action.2, state.roles action.1 with
  | .restore, .thread thread =>
    match state.places thread with
    | .returning home intena =>
      home = action.1 ∨ (state.cpus action.1).intena = intena ∧ (state.cpus home).intena = intena
    | _ => True
  | _, _ => True

instance [DecidableEq Hart] (state : State Hart Thread)
    (action : Hart × Move Thread) : Decidable (Admitted state action) := by
  unfold Admitted
  split
  · split <;> infer_instance
  · infer_instance

theorem admitted_restore {state : State Hart Thread} {hart home : Hart}
    {thread : Thread} {intena : Bool} (hrole : state.roles hart = .thread thread)
    (hplace : state.places thread = .returning home intena) :
    Admitted state (hart, .restore) ↔ home = hart ∨ (state.cpus hart).intena = intena ∧
        (state.cpus home).intena = intena := by simp only [Admitted, hrole, hplace]

/-- Threads are on one hart at most, and the flag of a hart in a critical section
is that of its thread. -/
structure Kept (state : State Hart Thread) : Prop where
  placed : ∀ hart thread, state.roles hart = .thread thread → state.places thread = .running ∨
      ∃ home intena, state.places thread = .returning home intena
  unique : ∀ left right thread, state.roles left = .thread thread →
    state.roles right = .thread thread → left = right
  saved : ∀ thread home intena, (state.places thread = .parked home intena ∨
      state.places thread = .returning home intena) → intena = state.before thread
  flagged : ∀ hart thread, state.roles hart = .thread thread →
    state.places thread = .running → 0 < (state.cpus hart).noff →
      (state.cpus hart).intena = state.before thread

theorem kept_new : Kept (State.new : State Hart Thread) :=
  ⟨nofun, nofun, by simp [State.new], nofun⟩

/-! ## Steps -/

section Keeping

variable [DecidableEq Hart] [DecidableEq Thread]
variable {state next : State Hart Thread} {hart home : Hart} {thread : Thread} {intena : Bool}

omit [DecidableEq Thread] in
/-- The flag goes where it belongs exactly if the step is admitted. -/
theorem restored_iff :
    ((update state.cpus home { state.cpus home with intena := intena } hart).intena = intena ∧
      ∀ other, other ≠ hart →
        update state.cpus home { state.cpus home with intena := intena } other = state.cpus other) ↔
      home = hart ∨ (state.cpus hart).intena = intena ∧ (state.cpus home).intena = intena := by
  by_cases hsame : home = hart
  · subst hsame
    refine iff_of_true ⟨by rw [update_self], ?_⟩ (.inl rfl)
    intro other hother
    exact update_of_ne hother _ _
  · rw [update_of_ne (Ne.symm hsame)]
    constructor
    · rintro ⟨hhart, hothers⟩
      have hhome := hothers home hsame
      rw [update_self] at hhome
      exact .inr ⟨hhart, (congrArg Cpu.intena hhome).symm⟩
    · rintro (habsurd | ⟨hhart, hhome⟩)
      · exact absurd habsurd hsame
      · refine ⟨hhart, ?_⟩
        intro other _
        rw [← hhome, update_eq_self]

omit [DecidableEq Thread] in
/-- A step of the scheduler of a hart. -/
theorem Kept.of_scheduler (hkept : Kept state) (cpu : Cpu)
    {role : Role Thread} (hnext : ∀ thread, role ≠ .thread thread) :
    Kept { state with
      cpus := update state.cpus hart cpu
      roles := update state.roles hart role } := by
  have hroles : ∀ other thread, update state.roles hart role other = .thread thread →
        other ≠ hart ∧ state.roles other = .thread thread := by
    intro other thread hother
    by_cases hsame : other = hart
    · rw [hsame, update_self] at hother
      exact absurd hother (hnext thread)
    · rw [update_of_ne hsame] at hother
      exact ⟨hsame, hother⟩
  constructor
  · intro other thread hother
    exact hkept.placed other thread (hroles other thread hother).2
  · intro left right thread hleft hright
    exact hkept.unique left right thread (hroles left thread hleft).2 (hroles right thread hright).2
  · exact hkept.saved
  · intro other thread hother hrunning
    obtain ⟨hne, hother⟩ := hroles other thread hother
    dsimp only
    rw [update_of_ne hne]
    exact hkept.flagged other thread hother hrunning

omit [DecidableEq Hart] [DecidableEq Thread] in
/-- No hart executes a thread that is switched out. -/
theorem Kept.away (hkept : Kept state) (hplace : state.places thread = .fresh ∨
      ∃ home intena, state.places thread = .parked home intena) (hart : Hart) :
    state.roles hart ≠ .thread thread := by
  intro hrole
  rcases hplace with hfresh | ⟨home, intena, hparked⟩
  · rcases hkept.placed hart thread hrole with hrunning | ⟨_, _, hreturning⟩
    · rw [hfresh] at hrunning
      cases hrunning
    · rw [hfresh] at hreturning
      cases hreturning
  · rcases hkept.placed hart thread hrole with hrunning | ⟨_, _, hreturning⟩
    · rw [hparked] at hrunning
      cases hrunning
    · rw [hparked] at hreturning
      cases hreturning

/-- The switch to a thread. -/
theorem Kept.enter (hkept : Kept state)
    (haway : ∀ hart, state.roles hart ≠ .thread thread) {place : Place Hart} {before : Bool}
    (hplace : place = .running ∧ before = (state.cpus hart).intena ∨
      ∃ home, place = .returning home before) :
    Kept { state with
      roles := update state.roles hart (.thread thread)
      places := update state.places thread place
      before := update state.before thread before } := by
  have hroles : ∀ other found, update state.roles hart (.thread thread) other = .thread found →
        other = hart ∧ found = thread ∨ found ≠ thread ∧ state.roles other = .thread found := by
    intro other found hother
    by_cases hsame : other = hart
    · rw [hsame, update_self] at hother
      cases hother
      exact .inl ⟨hsame, rfl⟩
    · rw [update_of_ne hsame] at hother
      refine .inr ⟨?_, hother⟩
      rintro rfl
      exact haway other hother
  constructor
  · intro other found hother
    dsimp only
    rcases hroles other found hother with ⟨-, rfl⟩ | ⟨hne, hother⟩
    · rw [update_self]
      exact hplace.imp And.left fun ⟨home, hreturning⟩ => ⟨home, _, hreturning⟩
    · rw [update_of_ne hne]
      exact hkept.placed other found hother
  · intro left right found hleft hright
    rcases hroles left found hleft with ⟨rfl, rfl⟩ | ⟨hne, hleft⟩
    · rcases hroles right found hright with ⟨rfl, -⟩ | ⟨hne, -⟩
      · rfl
      · exact absurd rfl hne
    · rcases hroles right found hright with ⟨-, rfl⟩ | ⟨-, hright⟩
      · exact absurd rfl hne
      · exact hkept.unique left right found hleft hright
  · intro found home intena hsaved
    dsimp only at hsaved ⊢
    by_cases hsame : found = thread
    · subst hsame
      rw [update_self] at hsaved ⊢
      rcases hplace with ⟨rfl, -⟩ | ⟨_, rfl⟩
      · rcases hsaved with hparked | hreturning
        · cases hparked
        · cases hreturning
      · rcases hsaved with hparked | hreturning
        · cases hparked
        · cases hreturning
          rfl
    · rw [update_of_ne hsame] at hsaved ⊢
      exact hkept.saved found home intena hsaved
  · intro other found hother hrunning hpos
    dsimp only at hrunning hpos ⊢
    rcases hroles other found hother with ⟨rfl, rfl⟩ | ⟨hne, hother⟩
    · rw [update_self] at hrunning ⊢
      rcases hplace with ⟨-, hbefore⟩ | ⟨home, rfl⟩
      · exact hbefore.symm
      · cases hrunning
    · rw [update_of_ne hne] at hrunning ⊢
      exact hkept.flagged other found hother hrunning hpos

omit [DecidableEq Hart] [DecidableEq Thread] in
theorem Kept.alone (hkept : Kept state) (hrole : state.roles hart = .thread thread) {other : Hart}
    {found : Thread} (hother : state.roles other = .thread found) :
    other = hart ∧ found = thread ∨ other ≠ hart ∧ found ≠ thread := by
  by_cases hsame : other = hart
  · subst hsame
    rw [hrole] at hother
    cases hother
    exact .inl ⟨rfl, rfl⟩
  · refine .inr ⟨hsame, ?_⟩
    rintro rfl
    exact hsame (hkept.unique other hart found hother hrole)

/-- A running thread changes the state of its hart. -/
theorem Kept.run (hkept : Kept state) (hrole : state.roles hart = .thread thread)
    (hrunning : state.places thread = .running) {cpu : Cpu} {before : Bool}
    (hflag : 0 < cpu.noff → cpu.intena = before) :
    Kept { state with
      cpus := update state.cpus hart cpu
      before := update state.before thread before } := by
  constructor
  · exact hkept.placed
  · exact hkept.unique
  · intro found home intena hsaved
    dsimp only at hsaved ⊢
    rw [update_of_ne]
    · exact hkept.saved found home intena hsaved
    · rintro rfl
      rw [hrunning] at hsaved
      rcases hsaved with hparked | hreturning
      · cases hparked
      · cases hreturning
  · intro other found hother hplace hpos
    dsimp only at hpos ⊢
    rcases hkept.alone hrole hother with ⟨rfl, rfl⟩ | ⟨hhart, hthread⟩
    · rw [update_self] at hpos
      rw [update_self, update_self]
      exact hflag hpos
    · rw [update_of_ne hhart] at hpos
      rw [update_of_ne hhart, update_of_ne hthread]
      exact hkept.flagged other found hother hplace hpos

/-- An admitted return from `sched`. -/
theorem Kept.restore (hkept : Kept state) (hrole : state.roles hart = .thread thread)
    (hplace : state.places thread = .returning home intena)
    (hadmitted : home = hart ∨ (state.cpus hart).intena = intena ∧
      (state.cpus home).intena = intena) :
    Kept { state with
      cpus := update state.cpus home { state.cpus home with intena := intena }
      places := update state.places thread .running } := by
  obtain ⟨hflag, hothers⟩ := restored_iff.mpr hadmitted
  constructor
  · intro other found hother
    dsimp only
    by_cases hsame : found = thread
    · exact .inl (by rw [hsame, update_self])
    · rw [update_of_ne hsame]
      exact hkept.placed other found hother
  · exact hkept.unique
  · intro found home' intena' hsaved
    dsimp only at hsaved ⊢
    by_cases hsame : found = thread
    · rw [hsame, update_self] at hsaved
      rcases hsaved with hparked | hreturning
      · cases hparked
      · cases hreturning
    · rw [update_of_ne hsame] at hsaved
      exact hkept.saved found home' intena' hsaved
  · intro other found hother hrunning hpos
    dsimp only at hrunning hpos ⊢
    rcases hkept.alone hrole hother with ⟨rfl, rfl⟩ | ⟨hhart, hthread⟩
    · exact hflag.trans (hkept.saved found home intena (.inr hplace))
    · rw [hothers other hhart] at hpos ⊢
      rw [update_of_ne hthread] at hrunning
      exact hkept.flagged other found hother hrunning hpos

/-- `sched` up to the switch. -/
theorem Kept.sched (hkept : Kept state) (hrole : state.roles hart = .thread thread)
    (hrunning : state.places thread = .running) (hnoff : (state.cpus hart).noff = 1) :
    Kept { state with
      roles := update state.roles hart .dropping
      places := update state.places thread (.parked hart (state.cpus hart).intena) } := by
  have hroles : ∀ other found, update state.roles hart .dropping other = .thread found →
        found ≠ thread ∧ state.roles other = .thread found := by
    intro other found hother
    by_cases hsame : other = hart
    · rw [hsame, update_self] at hother
      cases hother
    · rw [update_of_ne hsame] at hother
      refine ⟨?_, hother⟩
      rintro rfl
      exact hsame (hkept.unique other hart found hother hrole)
  constructor
  · intro other found hother
    obtain ⟨hne, hother⟩ := hroles other found hother
    dsimp only
    rw [update_of_ne hne]
    exact hkept.placed other found hother
  · intro left right found hleft hright
    exact hkept.unique left right found (hroles left found hleft).2 (hroles right found hright).2
  · intro found home intena hsaved
    dsimp only at hsaved
    by_cases hsame : found = thread
    · subst hsame
      rw [update_self] at hsaved
      rcases hsaved with hparked | hreturning
      · cases hparked
        exact hkept.flagged hart found hrole hrunning (by omega)
      · cases hreturning
    · rw [update_of_ne hsame] at hsaved
      exact hkept.saved found home intena hsaved
  · intro other found hother hplace
    obtain ⟨hne, hother⟩ := hroles other found hother
    dsimp only at hplace
    rw [update_of_ne hne] at hplace
    exact hkept.flagged other found hother hplace

omit [DecidableEq Hart] [DecidableEq Thread] in
theorem popOff_eq_some {cpu after : Cpu} (hpop : popOff cpu = some after) :
    0 < cpu.noff ∧ after.noff = cpu.noff - 1 ∧ after.intena = cpu.intena ∧
      (cpu.noff = 1 → after.interrupts = cpu.intena) := by
  unfold popOff at hpop
  split at hpop
  · cases hpop
  · next hready =>
      cases hpop
      refine ⟨by omega, rfl, rfl, ?_⟩
      intro hone
      simp [hone]

/-- A step of a thread, admitted if it is the return from `sched`. -/
theorem Kept.execute {move : Move Thread} (hkept : Kept state)
    (hrole : state.roles hart = .thread thread) (hadmitted : Admitted state (hart, move))
    (hstep : execute state hart thread move = some next) : Kept next := by
  cases hplace : state.places thread with
  | returning home intena =>
    cases move with
    | restore =>
      simp only [InterruptFlag.execute, hplace] at hstep
      cases hstep
      exact hkept.restore hrole hplace ((admitted_restore hrole hplace).mp hadmitted)
    | _ => simp [InterruptFlag.execute, hplace] at hstep
  | running =>
    have hflag := hkept.flagged hart thread hrole hplace
    have hsame : ∀ {cpu : Cpu}, (0 < cpu.noff → cpu.intena = state.before thread) →
        Kept { state with cpus := update state.cpus hart cpu } := by
      intro cpu hcpu
      have hrun := hkept.run hrole hplace hcpu
      rwa [update_eq_self] at hrun
    cases move with
    | push =>
      simp only [InterruptFlag.execute, hplace] at hstep
      cases hstep
      by_cases hzero : (state.cpus hart).noff = 0
      · rw [if_pos hzero]
        apply hkept.run hrole hplace
        intro _
        exact if_pos hzero
      · rw [if_neg hzero]
        apply hsame
        intro _
        exact (if_neg hzero).trans (hflag (Nat.pos_of_ne_zero hzero))
    | pop =>
      simp only [InterruptFlag.execute, hplace] at hstep
      obtain ⟨cpu, hpop, rfl⟩ := Option.map_eq_some_iff.mp hstep
      obtain ⟨hpos, -, hintena, -⟩ := popOff_eq_some hpop
      exact hsame fun _ => hintena.trans (hflag hpos)
    | toggle enabled =>
      simp only [InterruptFlag.execute, hplace] at hstep
      split at hstep
      · next hzero =>
          cases hstep
          exact hsame fun hpos => absurd hzero (Nat.ne_of_gt hpos)
      · cases hstep
    | sched =>
      simp only [InterruptFlag.execute, hplace] at hstep
      split at hstep
      · next hready =>
          cases hstep
          exact hkept.sched hrole hplace hready.1
      · cases hstep
    | _ => simp [InterruptFlag.execute, hplace] at hstep
  | _ => simp [InterruptFlag.execute, hplace] at hstep

/-- A step of the scheduler. -/
theorem Kept.schedule {role : Role Thread} {move : Move Thread}
    (hkept : Kept state) (hstep : schedule state hart role move = some next) : Kept next := by
  unfold InterruptFlag.schedule at hstep
  split at hstep
  case h_4 =>
    obtain ⟨-, ⟨⟩⟩ := Option.ite_none_right_eq_some.mp hstep
    exact hkept.of_scheduler _ nofun
  case h_7 trapped =>
    obtain ⟨cpu, -, rfl⟩ := Option.map_eq_some_iff.mp hstep
    cases trapped <;> exact hkept.of_scheduler cpu nofun
  case h_9 thread =>
    split at hstep
    · next hplace =>
        cases hstep
        exact hkept.enter (hkept.away (.inl hplace)) (.inl ⟨rfl, rfl⟩)
    · next home intena hplace =>
        cases hstep
        have hplaced : (Place.returning home intena : Place Hart) =
            .running ∧ intena = (state.cpus hart).intena ∨ ∃ home', Place.returning home intena =
              .returning home' intena := .inr ⟨home, rfl⟩
        have hentered := hkept.enter (hkept.away (.inr ⟨home, intena, hplace⟩)) hplaced
        have hbefore : update state.before thread intena = state.before := by
          rw [hkept.saved thread home intena (.inl hplace), update_eq_self]
        rwa [hbefore] at hentered
    · cases hstep
  case h_10 =>
    obtain ⟨cpu, -, rfl⟩ := Option.map_eq_some_iff.mp hstep
    exact hkept.of_scheduler cpu nofun
  case h_11 => cases hstep
  all_goals
    cases hstep
    exact hkept.of_scheduler _ nofun

theorem Kept.step {action : Hart × Move Thread} (hkept : Kept state)
    (hadmitted : Admitted state action) (hstep : step state action = some next) : Kept next := by
  unfold InterruptFlag.step at hstep
  split at hstep
  · next thread hrole => exact hkept.execute hrole hadmitted hstep
  · exact hkept.schedule hstep

end Keeping

/-! ## Every run -/

section Runs

variable [DecidableEq Hart] [DecidableEq Thread]
variable {state next : State Hart Thread} {action : Hart × Move Thread}

theorem step_restore {hart home : Hart} {thread : Thread} {intena : Bool}
    (hrole : state.roles hart = .thread thread)
    (hplace : state.places thread = .returning home intena) :
    step state (hart, .restore) = some { state with
      cpus := update state.cpus home { state.cpus home with intena := intena }
      places := update state.places thread .running } := by simp only [step, hrole, execute, hplace]

theorem admitted_of_follows (hstep : step state action = some next)
    (hfollows : Follows state action next) : Admitted state action := by
  obtain ⟨hart, move⟩ := action
  cases move with
  | restore =>
    cases hrole : state.roles hart with
    | thread thread =>
      cases hplace : state.places thread with
      | returning home intena =>
        rw [step_restore hrole hplace] at hstep
        cases hstep
        rw [admitted_restore hrole hplace]
        exact restored_iff.mp (hfollows thread home intena hrole hplace)
      | _ => simp only [Admitted, hrole, hplace]
    | _ => simp only [Admitted, hrole]
  | _ => trivial

theorem Kept.follows (hkept : Kept state) (hadmitted : Admitted state action)
    (hstep : InterruptFlag.step state action = some next) : Follows state action next := by
  obtain ⟨hart, move⟩ := action
  cases move with
  | restore =>
    intro thread home intena hrole hplace
    rw [step_restore hrole hplace] at hstep
    cases hstep
    exact restored_iff.mpr ((admitted_restore hrole hplace).mp hadmitted)
  | pop =>
    intro thread hrole hone
    change (state.cpus hart).noff = 1 at hone
    cases hplace : state.places thread with
    | running =>
      simp only [InterruptFlag.step, hrole, InterruptFlag.execute, hplace] at hstep
      obtain ⟨cpu, hpop, rfl⟩ := Option.map_eq_some_iff.mp hstep
      have hinterrupts := (popOff_eq_some hpop).2.2.2 hone
      change (update state.cpus hart cpu hart).interrupts = _
      rw [update_self, hinterrupts]
      exact hkept.flagged hart thread hrole hplace (by omega)
    | _ => simp [InterruptFlag.step, hrole, InterruptFlag.execute, hplace] at hstep
  | _ => trivial

/-- The flag follows the thread in every step of a run exactly if every return
from `sched` in it is on the CPU of the call or finds both CPUs with the value
that it restores. -/
theorem run_follows_iff {last : State Hart Thread}
    {record : List (State Hart Thread × (Hart × Move Thread))}
    (hrun : Run step State.new record last) :
    (∀ entry ∈ record, ∀ next, step entry.1 entry.2 = some next → Follows entry.1 entry.2 next) ↔
      ∀ entry ∈ record, Admitted entry.1 entry.2 := by
  constructor
  · intro hfollows entry hentry
    obtain ⟨next, hnext⟩ := hrun.step_of_mem hentry
    exact admitted_of_follows hnext (hfollows entry hentry next hnext)
  · intro hadmitted entry hentry next hnext
    have hkept := (hrun.invariant
      (fun _ _ _ hkept hadmitted hstep => hkept.step hadmitted hstep) kept_new
      hadmitted).2 entry hentry
    exact hkept.follows (hadmitted entry hentry) hnext

end Runs

/-- A thread that runs on the first of two harts is interrupted and yields with
interrupts off; both schedulers look for work. -/
def yielded : List (Bool × Move Unit) :=
  [(false, .intrOn), (false, .push), (false, .pop), (false, .lock), (false, .enter ()),
    (false, .pop), (false, .toggle false), (false, .push), (false, .sched),
    (false, .drop), (false, .intrOn), (true, .intrOn)]

def entered (hart : Bool) : List (Bool × Move Unit) :=
  yielded ++ [(hart, .push), (hart, .pop), (hart, .lock), (hart, .enter ())]

def resumed : List (Bool × Move Unit) :=
  entered false ++ [(false, .restore), (false, .pop)]

/-- It goes on where it was. -/
theorem run_follows_iff_same :
    ∃ record last, Run step State.new record last ∧ record.map Prod.snd = resumed ∧
      ∀ entry ∈ record, ∀ next, step entry.1 entry.2 = some next →
        Follows entry.1 entry.2 next := by
  have hsome : (resumed.foldlM (guarded Admitted step) State.new).isSome = true := by
    decide +kernel
  obtain ⟨last, hfold⟩ := Option.isSome_iff_exists.mp hsome
  obtain ⟨record, hrun, hactions, hadmitted⟩ := Run.of_foldlM_admitted hfold
  exact ⟨record, last, hrun, hactions, (run_follows_iff hrun).mpr hadmitted⟩

/-- It goes on on the other hart, with interrupts to be enabled there. -/
theorem not_run_follows :
    ¬∀ record (last : State Bool Unit), Run step State.new record last →
      ∀ entry ∈ record, ∀ next, step entry.1 entry.2 = some next →
        Follows entry.1 entry.2 next := by
  intro hall
  have hsome : ((entered true).foldlM step State.new).any (fun middle =>
        middle.roles true = .thread () ∧ middle.places () = .returning false false ∧
          (middle.cpus true).intena = true) = true := by decide +kernel
  obtain ⟨record, middle, hrun, -, hrole, hplace, hintena⟩ := Run.of_any hsome
  have hstep := step_restore hrole hplace
  have hfollows := hall _ _ (hrun.concat hstep) _
    (List.mem_append_right _ List.mem_cons_self) _ hstep
  have hadmitted := (admitted_restore hrole hplace).mp (admitted_of_follows hstep hfollows)
  rw [hintena] at hadmitted
  simp at hadmitted

end RxOs.InterruptFlag
