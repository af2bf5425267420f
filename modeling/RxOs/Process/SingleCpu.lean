import RxOs.Process.Scheduler

/-!
# A process runs on one CPU

While a CPU has picked a process, runs it or puts it away, the slot of the
process is in the custody of this CPU, and its state and its lock are those that
go with the place where the CPU is.  A slot in nobody's custody has a free lock,
and if it can be picked its context has been saved.
-/

namespace RxOs.SingleCpu

open Function Custody Transition Scheduler
open WaitList (ProcState)

variable {procs harts : ℕ}

def Parked : ProcState → Prop
  | .runnable | .sleeping | .zombie => True
  | _ => False

def Fits (hart : Fin harts) (place : Location procs) (slot : Slot procs harts) : Prop :=
  match place with
  | .seek _ => True
  | .picked _ | .chosen _ => slot.state = .allocated ∧ slot.lock = none ∧ slot.context ≠ .stale
  | .locked _ => slot.state = .running ∧ slot.lock = some hart ∧ slot.context ≠ .stale
  | .resumed _ _ => slot.state = .running ∧ slot.lock = some hart
  | .running _ => slot.state = .running ∧ slot.lock = none
  | .parting _ context => Parked slot.state ∧ slot.lock = some hart ∧ context ≠ .stale
  | .back _ | .cleared _ => Parked slot.state ∧ slot.lock = some hart ∧ slot.context ≠ .stale

/-- A slot in nobody's custody. -/
structure Resting (slot : Slot procs harts) : Prop where
  lock : slot.lock = none
  state : slot.state ≠ .running
  saved : slot.state = .runnable ∨ slot.state = .sleeping → slot.context ≠ .stale

/-- What the field `process` of a CPU is. -/
def names : Location procs → Option (Fin procs)
  | .seek _ | .picked _ | .cleared _ => none
  | .chosen proc | .locked proc | .back proc | .resumed proc _
  | .running proc | .parting proc _ => some proc

/-- While a process runs, the context of the CPU is that of its scheduler. -/
def Framed (frame : Option (Fin procs × Option (Fin procs))) :
    Location procs → Prop
  | .resumed proc _ | .running proc | .parting proc _ => frame = some (proc, none)
  | _ => True

/-- A slot from `alloc_proc` that `fork` has not made runnable. -/
structure Embryo (machine : Machine procs harts) (child : Fin procs) :
    Prop where
  state : (machine.slots child).state = .allocated
  saved : (machine.slots child).context ≠ .stale
  free : ∀ hart, (machine.places hart).has ≠ some child

/-- The slots, the CPUs and the locks go together. -/
structure Ordered (machine : Machine procs harts) : Prop where
  custody : Entrusted Location.has Fits Resting machine.places machine.slots
  named : ∀ hart, machine.process hart = names (machine.places hart)
  framed : ∀ hart, Framed (machine.frame hart) (machine.places hart)
  stack : ∀ hart, machine.stack hart = none
  forking : ∀ proc child, machine.tasks proc = .forking child → Embryo machine child ∧
      ∀ other, machine.tasks other = .forking child → other = proc
  holding : ∀ proc, (machine.tasks proc).holds = true →
    ∃ hart, machine.places hart = .running proc ∧ machine.waitLock = some hart
  reaping : ∀ proc child, machine.tasks proc = .reaping child →
    (machine.slots child).state = .zombie ∧ (machine.slots child).lock = none

theorem ordered_boot (initProc : Fin procs) :
    Ordered (boot initProc : Machine procs harts) where
  custody :=
    { own := fun _ _ _ hleft => nomatch hleft
      fits := fun _ _ hhas => nomatch hhas
      rest := by
        intro slot _
        change Resting (update (fun _ => (⟨.unused, none, none, .stale⟩ :
          Slot procs harts)) initProc ⟨.runnable, none, none, .fresh⟩ slot)
        by_cases hslot : slot = initProc
        · rw [hslot, update_self]
          exact ⟨rfl, nofun, fun _ => nofun⟩
        · rw [update_of_ne hslot]
          exact ⟨rfl, nofun, fun hstate => hstate.elim nofun nofun⟩ }
  named := fun _ => rfl
  framed := fun _ => trivial
  stack := fun _ => rfl
  forking := nofun
  holding := nofun
  reaping := nofun

section Steps

variable {machine next : Machine procs harts}
variable {hart : Fin harts} {proc child target : Fin procs}
variable {place : Location procs} {slot : Slot procs harts}

/-- A CPU has the lock of every slot with this state that is in its custody. -/
theorem Ordered.free_of_lock (hordered : Ordered machine)
    (hlock : (machine.slots target).lock = none)
    (hstate : (machine.slots target).state ≠ .allocated ∧
      (machine.slots target).state ≠ .running) (hart : Fin harts) :
    (machine.places hart).has ≠ some target := by
  refine hordered.custody.free_of_not_fits ?_ hart
  intro holder place hhas hfits
  cases place with
  | seek => cases hhas
  | picked | chosen => exact hstate.1 hfits.1
  | locked | resumed | running => exact hstate.2 hfits.1
  | parting | back | cleared => exact nomatch hlock.symm.trans hfits.2.1

theorem Ordered.running_unique (hordered : Ordered machine)
    {other : Fin harts} (hhart : machine.places hart = .running proc)
    (hother : machine.places other = .running proc) : other = hart :=
  hordered.custody.own other hart proc (by rw [hother]; rfl) (by rw [hhart]; rfl)

theorem Ordered.holder_unique (hordered : Ordered machine)
    {other : Fin procs} (hproc : (machine.tasks proc).holds = true)
    (hother : (machine.tasks other).holds = true) : other = proc := by
  obtain ⟨hart, hplace, hlock⟩ := hordered.holding proc hproc
  obtain ⟨hart', hplace', hlock'⟩ := hordered.holding other hother
  obtain rfl := Option.some.inj (hlock.symm.trans hlock')
  rw [hplace] at hplace'
  exact (Location.running.inj hplace').symm

/-- A CPU moves; of the slots that change none is that of a child of `fork` or
that of a zombie to be freed. -/
theorem Ordered.shift (hordered : Ordered machine)
    (hplaces : next.places = update machine.places hart place)
    (hslots : ∀ other, next.slots other = machine.slots other ∨
      ¬Embryo machine other ∧ ¬((machine.slots other).state = .zombie ∧
        (machine.slots other).lock = none)) (htasks : next.tasks = machine.tasks)
    (hwaitLock : next.waitLock = machine.waitLock)
    (hcustody : Entrusted Location.has Fits Resting next.places next.slots)
    (hprocess : next.process hart = names place) (hprocesses : ∀ other, other ≠ hart →
      next.process other = machine.process other) (hframe : Framed (next.frame hart) place)
    (hframes : ∀ other, other ≠ hart → next.frame other = machine.frame other)
    (hstack : ∀ other, next.stack other = none)
    (hhas : ∀ child, place.has = some child → ¬Embryo machine child)
    (hholds : ∀ other, machine.places hart = .running other →
      (machine.tasks other).holds = false) : Ordered next := by
  have hplace : ∀ other, other ≠ hart →
      next.places other = machine.places other := by
    intro other hother
    rw [hplaces, update_of_ne hother]
  have hself : next.places hart = place := by rw [hplaces, update_self]
  refine ⟨hcustody, ?_, ?_, hstack, ?_, ?_, ?_⟩
  · intro other
    by_cases hother : other = hart
    · rw [hother, hprocess, hself]
    · rw [hprocesses other hother, hplace other hother, hordered.named other]
  · intro other
    by_cases hother : other = hart
    · rw [hother, hself]
      exact hframe
    · rw [hframes other hother, hplace other hother]
      exact hordered.framed other
  · intro forker child hfork
    rw [htasks] at hfork
    obtain ⟨hchild, hunique⟩ := hordered.forking forker child hfork
    have hslot : next.slots child = machine.slots child :=
      (hslots child).resolve_right fun hchanged => hchanged.1 hchild
    refine ⟨⟨?_, ?_, ?_⟩, fun other hother => hunique other (by rwa [htasks] at hother)⟩
    · rw [hslot]
      exact hchild.state
    · rw [hslot]
      exact hchild.saved
    · intro other hother
      by_cases hsame : other = hart
      · rw [hsame, hself] at hother
        exact hhas child hother hchild
      · rw [hplace other hsame] at hother
        exact hchild.free other hother
  · intro holder hhold
    rw [htasks] at hhold
    obtain ⟨other, hother, hlock⟩ := hordered.holding holder hhold
    have hne : other ≠ hart := by
      rintro rfl
      rw [hholds holder hother] at hhold
      cases hhold
    exact ⟨other, (hplace other hne).trans hother, hwaitLock.trans hlock⟩
  · intro reaper child hreap
    rw [htasks] at hreap
    have hchild := hordered.reaping reaper child hreap
    rw [(hslots child).resolve_right fun hchanged => hchanged.2 hchild]
    exact hchild

theorem slots_update {slots : Fin procs → Slot procs harts}
    {property : Fin procs → Prop} (hproc : property proc) (other : Fin procs) :
    update slots proc slot other = slots other ∨ property other := by
  by_cases hother : other = proc
  · rw [hother]
    exact Or.inr hproc
  · exact Or.inl (update_of_ne hother ..)

/-- A CPU moves and changes the slot that it has. -/
theorem Ordered.shift_own (hordered : Ordered machine)
    (hown : (machine.places hart).has = some proc)
    (hplaces : next.places = update machine.places hart place)
    (hslots : next.slots = update machine.slots proc slot) (htasks : next.tasks = machine.tasks)
    (hwaitLock : next.waitLock = machine.waitLock)
    (hfits : place.has = some proc ∧ Fits hart place slot ∨ place.has = none ∧ Resting slot)
    (hprocess : next.process hart = names place) (hprocesses : ∀ other, other ≠ hart →
      next.process other = machine.process other) (hframe : Framed (next.frame hart) place)
    (hframes : ∀ other, other ≠ hart → next.frame other = machine.frame other)
    (hstack : ∀ other, next.stack other = none)
    (hholds : ∀ other, machine.places hart = .running other →
      (machine.tasks other).holds = false) : Ordered next := by
  have hembryo : ¬Embryo machine proc := fun hembryo => hembryo.free hart hown
  have hzombie : ¬((machine.slots proc).state = .zombie ∧ (machine.slots proc).lock = none) := by
    rintro ⟨hzombie, hlock⟩
    refine hordered.free_of_lock hlock ?_ hart hown
    rw [hzombie]
    exact ⟨nofun, nofun⟩
  refine hordered.shift hplaces ?_ htasks hwaitLock ?_ hprocess hprocesses
    hframe hframes hstack ?_ hholds
  · rw [hslots]
    exact slots_update ⟨hembryo, hzombie⟩
  · rw [hplaces, hslots]
    rcases hfits with ⟨hhas, hfits⟩ | ⟨hnone, hrest⟩
    · exact hordered.custody.move hown hhas hfits
    · exact hordered.custody.give hown hnone hrest
  · intro child hchild
    rcases hfits with ⟨hhas, -⟩ | ⟨hnone, -⟩
    · obtain rfl := Option.some.inj (hhas.symm.trans hchild)
      exact hembryo
    · rw [hnone] at hchild
      cases hchild

/-- A CPU that has no slot moves. -/
theorem Ordered.stroll (hordered : Ordered machine) (hnext : next =
      { machine with places := update machine.places hart place })
    (hnone : (machine.places hart).has = none) (hplace : place.has = none)
    (hprocess : machine.process hart = names place) : Ordered next := by
  subst hnext
  refine hordered.shift rfl (fun _ => Or.inl rfl) rfl rfl
    (hordered.custody.stroll hnone hplace) hprocess (fun _ _ => rfl) ?_
    (fun _ _ => rfl) hordered.stack ?_ ?_
  · cases place with
    | seek => trivial
    | _ => cases hplace
  · intro child hchild
    rw [hplace] at hchild
    cases hchild
  · intro other hother
    rw [hother] at hnone
    cases hnone

theorem Ordered.at_place (hordered : Ordered machine)
    (hplace : machine.places hart = place) (hhas : place.has = some proc) :
    (machine.places hart).has = some proc ∧ Fits hart place (machine.slots proc) := by
  have hown : (machine.places hart).has = some proc := by
    rw [hplace]
    exact hhas
  have hfits := hordered.custody.fits hart proc hown
  rw [hplace] at hfits
  exact ⟨hown, hfits⟩

/-- A process yields. -/
theorem Ordered.tryYield (hordered : Ordered machine) (hplace : machine.places hart = .running proc)
    (hholds : (machine.tasks proc).holds = false)
    (hstep : tryYield machine hart = some next) : Ordered next := by
  obtain ⟨hown, hfits⟩ := hordered.at_place hplace rfl
  have hnamed := hordered.named hart
  have hframed := hordered.framed hart
  rw [hplace] at hnamed hframed
  simp only [Scheduler.tryYield, hnamed, names] at hstep
  rw [if_neg (not_not_intro hfits.2), if_pos hfits.1] at hstep
  cases hstep
  refine hordered.shift_own hown rfl rfl rfl rfl
    (Or.inl ⟨rfl, trivial, rfl, nofun⟩) hnamed (fun _ _ => rfl) hframed
    (fun _ _ => rfl) hordered.stack ?_
  intro other hother
  obtain rfl := Location.running.inj (hplace.symm.trans hother)
  exact hholds

/-- In the scheduler a timer interrupt does nothing: there is no process, or
its state is not `Running`. -/
theorem Ordered.tryYield_idle (hordered : Ordered machine)
    (hplace : (∃ rest, machine.places hart = .seek rest) ∨
      ∃ proc, machine.places hart = .picked proc ∨ machine.places hart = .chosen proc)
    (hstep : Scheduler.tryYield machine hart = some next) : Ordered next := by
  have hnamed := hordered.named hart
  rw [Scheduler.tryYield, hnamed] at hstep
  rcases hplace with ⟨rest, hplace⟩ | ⟨proc, hplace | hplace⟩
  · rw [hplace] at hstep
    cases hstep
    exact hordered
  · rw [hplace] at hstep
    cases hstep
    exact hordered
  · obtain ⟨-, hfits⟩ := hordered.at_place hplace rfl
    simp only [hplace, names] at hstep
    rw [if_neg (not_not_intro hfits.2.1), hfits.1, if_neg nofun] at hstep
    cases hstep
    exact hordered

/-- `seek_runnable` takes a slot. -/
theorem Ordered.pick (hordered : Ordered machine) {rest : List (Fin procs)}
    (hplace : machine.places hart = .seek (proc :: rest)) (hlock : (machine.slots proc).lock = none)
    (hrunnable : (machine.slots proc).state = .runnable) :
    Ordered { machine with
      slots := update machine.slots proc { machine.slots proc with state := .allocated }
      places := update machine.places hart (.picked proc) } := by
  have hnone : (machine.places hart).has = none := by rw [hplace]; rfl
  have hnamed := hordered.named hart
  rw [hplace] at hnamed
  have hfree := hordered.free_of_lock hlock (by rw [hrunnable]; exact ⟨nofun, nofun⟩)
  have hsaved := (hordered.custody.rest proc hfree).saved (Or.inl hrunnable)
  have hembryo : ¬Embryo machine proc := fun hembryo => nomatch hembryo.state.symm.trans hrunnable
  refine hordered.shift rfl (slots_update ⟨hembryo, ?_⟩) rfl rfl
    (hordered.custody.take hnone hfree rfl ⟨rfl, hlock, hsaved⟩) hnamed
    (fun _ _ => rfl) trivial (fun _ _ => rfl) hordered.stack ?_ ?_
  · rw [hrunnable]
    exact fun hzombie => nomatch hzombie.1
  · rintro child ⟨⟩
    exact hembryo
  · rw [hplace]
    nofun

theorem Ordered.switching (hordered : Ordered machine) {move : Move procs}
    (hstep : switching machine hart move = some next) : Ordered next := by
  have hnamed := hordered.named hart
  have hframed := hordered.framed hart
  rw [Scheduler.switching.eq_def] at hstep
  split at hstep <;> try split at hstep
  all_goals first | cases hstep | skip
  · next hplace =>
      rw [hplace] at hnamed
      exact hordered.stroll rfl (by rw [hplace]; rfl) rfl hnamed
  · next proc rest hplace =>
      obtain ⟨hlock, hstep⟩ := Option.ite_none_left_eq_some.mp hstep
      split at hstep <;> cases hstep
      · next hrunnable => exact hordered.pick hplace (not_not.mp hlock) hrunnable
      · rw [hplace] at hnamed
        exact hordered.stroll rfl (by rw [hplace]; rfl) rfl hnamed
  · next proc hplace =>
      obtain ⟨hown, hfits⟩ := hordered.at_place hplace rfl
      exact hordered.shift_own hown rfl (update_eq_self _ _).symm rfl rfl
        (Or.inl ⟨rfl, hfits⟩) (update_self ..)
        (fun _ hother => update_of_ne hother ..) trivial (fun _ _ => rfl)
        hordered.stack (by rw [hplace]; nofun)
  · next proc hplace =>
      obtain ⟨-, ⟨⟩⟩ := Option.ite_none_right_eq_some.mp hstep
      obtain ⟨hown, hfits⟩ := hordered.at_place hplace rfl
      rw [hplace] at hnamed
      exact hordered.shift_own hown rfl rfl rfl rfl
        (Or.inl ⟨rfl, rfl, rfl, hfits.2.2⟩) hnamed (fun _ _ => rfl) trivial
        (fun _ _ => rfl) hordered.stack (by rw [hplace]; nofun)
  · next proc hplace =>
      obtain ⟨hown, hfits⟩ := hordered.at_place hplace rfl
      rw [hplace] at hnamed
      refine hordered.shift_own hown rfl rfl rfl rfl
        (Or.inl ⟨rfl, hfits.1, hfits.2.1⟩) hnamed (fun _ _ => rfl) ?_
        (fun _ hother => update_of_ne hother ..) hordered.stack (by rw [hplace]; nofun)
      change update machine.frame hart _ hart = some (proc, none)
      rw [update_self, hordered.stack hart]
  · next proc context hplace =>
      obtain ⟨hown, hfits⟩ := hordered.at_place hplace rfl
      rw [hplace] at hnamed hframed
      exact hordered.shift_own hown rfl rfl rfl rfl
        (Or.inl ⟨rfl, hfits.1, rfl⟩) hnamed (fun _ _ => rfl) hframed
        (fun _ _ => rfl) hordered.stack (by rw [hplace]; nofun)
  · next rest hplace => exact hordered.tryYield_idle (Or.inl ⟨rest, hplace⟩) hstep
  · next proc hplace => exact hordered.tryYield_idle (Or.inr ⟨proc, Or.inl hplace⟩) hstep
  · next proc hplace => exact hordered.tryYield_idle (Or.inr ⟨proc, Or.inr hplace⟩) hstep
  · next proc hplace =>
      obtain ⟨hholds, hstep⟩ := Option.ite_none_left_eq_some.mp hstep
      exact hordered.tryYield hplace (Bool.eq_false_iff.mpr hholds) hstep
  · next proc context frame stack hplace hframe =>
      obtain ⟨hown, hfits⟩ := hordered.at_place hplace rfl
      rw [hplace] at hnamed hframed
      cases hframe.symm.trans hframed
      refine hordered.shift_own hown rfl rfl rfl rfl
        (Or.inl ⟨rfl, hfits.1, hfits.2.1, hfits.2.2⟩) hnamed
        (fun _ _ => rfl) trivial (fun _ _ => rfl) ?_ (by rw [hplace]; nofun)
      exact (forall_update_iff _ fun _ stack => stack = none).mpr
        ⟨rfl, fun other _ => hordered.stack other⟩
  · next proc hplace =>
      obtain ⟨hown, hfits⟩ := hordered.at_place hplace rfl
      exact hordered.shift_own hown rfl (update_eq_self _ _).symm rfl rfl
        (Or.inl ⟨rfl, hfits⟩) (update_self ..)
        (fun _ hother => update_of_ne hother ..) trivial (fun _ _ => rfl)
        hordered.stack (by rw [hplace]; nofun)
  · next proc hplace =>
      obtain ⟨hown, hparked, -, hsaved⟩ := hordered.at_place hplace rfl
      rw [hplace] at hnamed
      refine hordered.shift_own hown rfl rfl rfl rfl
        (Or.inr ⟨rfl, rfl, ?_, fun _ => hsaved⟩) hnamed (fun _ _ => rfl)
        trivial (fun _ _ => rfl) hordered.stack (by rw [hplace]; nofun)
      intro hrunning
      rwa [show (machine.slots proc).state = .running from hrunning] at hparked

/-- The CPUs and the context that `switch` goes back to stay as they are. -/
structure SameCpus (machine next : Machine procs harts) : Prop where
  places : next.places = machine.places
  process : next.process = machine.process
  frame : next.frame = machine.frame
  stack : next.stack = machine.stack

/-- What is not about the files and the wait list stays as it is. -/
theorem Ordered.congr (hordered : Ordered machine)
    (hcpus : SameCpus machine next) (hslots : next.slots = machine.slots)
    (htasks : next.tasks = machine.tasks)
    (hwaitLock : next.waitLock = machine.waitLock) : Ordered next := by
  obtain ⟨hcustody, hnamed, hframed, hstacks, hforking, hholding, hreaping⟩ := hordered
  obtain ⟨hplaces, hprocess, hframe, hstack⟩ := hcpus
  refine ⟨?_, ?_, ?_, ?_, ?_, ?_, ?_⟩
  · rwa [hplaces, hslots]
  · rwa [hprocess, hplaces]
  · rwa [hframe, hplaces]
  · rwa [hstack]
  · intro proc child hfork
    rw [htasks] at hfork ⊢
    obtain ⟨⟨hstate, hsaved, hfree⟩, hunique⟩ := hforking proc child hfork
    exact ⟨⟨by rwa [hslots], by rwa [hslots], by rwa [hplaces]⟩, hunique⟩
  · rwa [htasks, hplaces, hwaitLock]
  · rwa [htasks, hslots]

/-- A process that sleeps becomes runnable. -/
theorem Ordered.rouse (hordered : Ordered machine)
    (hsleeping : (machine.slots target).state = .sleeping)
    (hlock : (machine.slots target).lock = none)
    (hslot : slot.state = .runnable ∧ slot.lock = none ∧
      slot.context = (machine.slots target).context) :
    Ordered { machine with slots := update machine.slots target slot } := by
  have hfree := hordered.free_of_lock hlock (by rw [hsleeping]; exact ⟨nofun, nofun⟩)
  have hresting : Resting slot := by
    refine ⟨hslot.2.1, by rw [hslot.1]; nofun, fun _ => ?_⟩
    rw [hslot.2.2]
    exact (hordered.custody.rest target hfree).saved (Or.inr hsleeping)
  have hother : ∀ other, (machine.slots other).state ≠ .sleeping →
      update machine.slots target slot other = machine.slots other := by
    intro other hstate
    refine update_of_ne ?_ ..
    rintro rfl
    exact hstate hsleeping
  refine ⟨hordered.custody.touch hfree hresting, hordered.named,
    hordered.framed, hordered.stack, ?_, hordered.holding, ?_⟩
  · intro proc child hfork
    obtain ⟨⟨hstate, hfresh, hnobody⟩, hunique⟩ := hordered.forking proc child hfork
    have hsame := hother child (by rw [hstate]; nofun)
    refine ⟨⟨?_, ?_, hnobody⟩, hunique⟩
    · dsimp only
      rwa [hsame]
    · dsimp only
      rwa [hsame]
  · intro proc child hreap
    have hzombie := hordered.reaping proc child hreap
    dsimp only
    rw [hother child (by rw [hzombie.1]; nofun)]
    exact hzombie

/-- A visit of `wake_up`, or of `kill`, to a slot whose lock is free. -/
theorem Ordered.wakeUp (hordered : Ordered machine) {channel : Option (Channel procs)}
    (hlock : (machine.slots target).lock = none) :
    Ordered { machine with
      slots := update machine.slots target ((machine.slots target).wakeUp channel) } := by
  rw [Slot.wakeUp]
  split
  · next hsleeps => exact hordered.rouse hsleeps.1 hlock ⟨rfl, hlock, rfl⟩
  · exact hordered.congr ⟨rfl, rfl, rfl, rfl⟩ (update_eq_self _ _) rfl rfl

theorem Ordered.wakeTarget (hordered : Ordered machine) {channel : Option (Channel procs)}
    (hstep : wakeTarget machine hart channel target = some next) : Ordered next := by
  rw [Scheduler.wakeTarget] at hstep
  split at hstep
  · cases hstep
    exact hordered
  · obtain ⟨hlock, ⟨⟩⟩ := Option.ite_none_right_eq_some.mp hstep
    exact hordered.wakeUp hlock

/-- A visit of `wake_up` changes nothing but the slot. -/
theorem wakeTarget_same {channel : Option (Channel procs)}
    (hstep : wakeTarget machine hart channel target = some next) :
    next.places = machine.places ∧ next.waitLock = machine.waitLock := by
  rw [Scheduler.wakeTarget] at hstep
  split at hstep
  · cases hstep
    exact ⟨rfl, rfl⟩
  · obtain ⟨-, ⟨⟩⟩ := Option.ite_none_right_eq_some.mp hstep
    exact ⟨rfl, rfl⟩

/-- A process that runs does something to a slot that is its own to change, and
goes on to another task. -/
theorem Ordered.work (hordered : Ordered machine) {task : Task procs}
    (hplace : machine.places hart = .running proc) (hcpus : SameCpus machine next)
    (htasks : next.tasks = update machine.tasks proc task)
    (hcustody : Entrusted Location.has Fits Resting machine.places next.slots)
    (hslots : ∀ other, next.slots other = machine.slots other ∨
      ∀ worker, worker ≠ proc → machine.tasks worker ≠ .forking other ∧
        machine.tasks worker ≠ .reaping other)
    (hlock : next.waitLock = machine.waitLock ∨ machine.waitLock = none ∨
      (machine.tasks proc).holds = true)
    (hfork : ∀ child, task = .forking child → Embryo next child ∧
      ∀ other, other ≠ proc → machine.tasks other ≠ .forking child)
    (hhold : task.holds = true → next.waitLock = some hart)
    (hreap : ∀ child, task = .reaping child →
      (next.slots child).state = .zombie ∧ (next.slots child).lock = none) : Ordered next := by
  have hself : next.tasks proc = task := by rw [htasks, update_self]
  have hother : ∀ other, other ≠ proc →
      next.tasks other = machine.tasks other := by
    intro other hne
    rw [htasks, update_of_ne hne]
  obtain ⟨hplaces, hprocess, hframe, hstack⟩ := hcpus
  refine ⟨by rwa [hplaces], ?_, ?_, ?_, ?_, ?_, ?_⟩
  · rw [hprocess, hplaces]
    exact hordered.named
  · rw [hframe, hplaces]
    exact hordered.framed
  · rw [hstack]
    exact hordered.stack
  · intro forker child hforker
    by_cases hne : forker = proc
    · subst hne
      rw [hself] at hforker
      obtain ⟨hembryo, hunique⟩ := hfork child hforker
      refine ⟨hembryo, fun other hforks => ?_⟩
      by_contra hdiff
      rw [hother other hdiff] at hforks
      exact hunique other hdiff hforks
    · rw [hother forker hne] at hforker
      obtain ⟨hembryo, hunique⟩ := hordered.forking forker child hforker
      have hslot : next.slots child = machine.slots child :=
        (hslots child).resolve_right fun hchange => (hchange forker hne).1 hforker
      refine ⟨⟨by rw [hslot]; exact hembryo.state, by rw [hslot]; exact hembryo.saved,
        by rw [hplaces]; exact hembryo.free⟩, fun other hforks => ?_⟩
      by_cases hdiff : other = proc
      · rw [hdiff, hself] at hforks
        exact absurd hforker ((hfork child hforks).2 forker hne)
      · rw [hother other hdiff] at hforks
        exact hunique other hforks
  · intro holder hholds
    by_cases hne : holder = proc
    · rw [hne, hself] at hholds
      rw [hne]
      exact ⟨hart, by rw [hplaces, hplace], hhold hholds⟩
    · rw [hother holder hne] at hholds
      obtain ⟨cpu, hcpu, hheld⟩ := hordered.holding holder hholds
      refine ⟨cpu, by rw [hplaces, hcpu], ?_⟩
      rcases hlock with hsame | hnone | hproc
      · rw [hsame, hheld]
      · rw [hnone] at hheld
        cases hheld
      · exact absurd (hordered.holder_unique hproc hholds) hne
  · intro reaper child hreaper
    by_cases hne : reaper = proc
    · rw [hne, hself] at hreaper
      exact hreap child hreaper
    · rw [hother reaper hne] at hreaper
      rw [(hslots child).resolve_right fun hchange => (hchange reaper hne).2 hreaper]
      exact hordered.reaping reaper child hreaper

/-- A process goes on to another task and leaves the slots alone. -/
theorem Ordered.turn (hordered : Ordered machine) {task : Task procs}
    (hplace : machine.places hart = .running proc) (hcpus : SameCpus machine next)
    (htasks : next.tasks = update machine.tasks proc task) (hslots : next.slots = machine.slots)
    (hlock : next.waitLock = machine.waitLock ∨ machine.waitLock = none ∨
      (machine.tasks proc).holds = true) (hfork : ∀ child, task ≠ .forking child)
    (hhold : task.holds = true → next.waitLock = some hart)
    (hreap : ∀ child, task = .reaping child → (machine.slots child).state = .zombie ∧
        (machine.slots child).lock = none) : Ordered next := by
  refine hordered.work hplace hcpus htasks (by rw [hslots]; exact hordered.custody)
    (fun other => Or.inl (by rw [hslots])) hlock
    (fun child hsame => absurd hsame (hfork child)) hhold ?_
  rwa [hslots]

/-- A process that runs goes to sleep or becomes a zombie, with the lock of its
slot, and goes on to another task. -/
theorem Ordered.leave (hordered : Ordered machine) {task : Task procs} {context : Context}
    (hplace : machine.places hart = .running proc) (hplaces : next.places =
      update machine.places hart (.parting proc context))
    (hprocess : next.process = machine.process) (hframe : next.frame = machine.frame)
    (hstack : next.stack = machine.stack) (htasks : next.tasks = update machine.tasks proc task)
    (hslots : next.slots = update machine.slots proc slot)
    (hslot : Parked slot.state ∧ slot.lock = some hart ∧ context ≠ .stale)
    (hlock : next.waitLock = machine.waitLock ∨ (machine.tasks proc).holds = true)
    (htask : task.holds = false ∧ (∀ child, task ≠ .forking child) ∧
      ∀ child, task ≠ .reaping child) : Ordered next := by
  -- first the task, then the place
  have hturned : Ordered { machine with
      tasks := update machine.tasks proc task
      waitLock := next.waitLock } :=
    hordered.turn hplace ⟨rfl, rfl, rfl, rfl⟩ rfl rfl (hlock.imp id Or.inr)
      htask.2.1 (by rw [htask.1]; nofun) (fun child hsame => absurd hsame (htask.2.2 child))
  have hnamed := hordered.named hart
  have hframed := hordered.framed hart
  rw [hplace] at hnamed hframed
  refine hturned.shift_own (by dsimp only; rw [hplace]; rfl) hplaces hslots
    htasks rfl (Or.inl ⟨rfl, hslot⟩) ?_ ?_ ?_ ?_ ?_ ?_
  · rw [hprocess]
    exact hnamed
  · exact fun other _ => by rw [hprocess]
  · rw [hframe]
    exact hframed
  · exact fun other _ => by rw [hframe]
  · rw [hstack]
    exact hordered.stack
  · intro other hother
    obtain rfl := Location.running.inj (hplace.symm.trans hother)
    dsimp only
    rw [update_self]
    exact htask.1

/-- The process is about to leave `process::exit`. -/
def jumps : Task procs → Bool
  | .dying .killed _ [] => true
  | _ => false

/-- The step is not the end of `process::exit`. -/
def Admitted (machine : Machine procs harts) :
    Fin harts × Move procs → Prop
  | (hart, .finish) => ∀ proc, machine.places hart = .running proc →
      jumps (machine.tasks proc) = false
  | _ => True

theorem Ordered.not_forking (hordered : Ordered machine) (child : Fin procs)
    (hstate : (machine.slots child).state ≠ .allocated) (worker : Fin procs) :
    machine.tasks worker ≠ .forking child :=
  fun hfork => hstate (hordered.forking worker child hfork).1.state

theorem Ordered.not_reaping (hordered : Ordered machine) (child : Fin procs)
    (hstate : (machine.slots child).state ≠ .zombie) (worker : Fin procs) :
    machine.tasks worker ≠ .reaping child :=
  fun hreap => hstate (hordered.reaping worker child hreap).1

theorem Ordered.alloc (hordered : Ordered machine) (hplace : machine.places hart = .running proc)
    (hstep : working machine hart proc (.alloc child) = some next) : Ordered next := by
  simp only [Scheduler.working, Option.ite_none_right_eq_some] at hstep
  obtain ⟨⟨-, hlock, hunused⟩, hnext⟩ := hstep
  have hfree := hordered.free_of_lock hlock (by rw [hunused]; exact ⟨nofun, nofun⟩)
  have hforking := hordered.not_forking child (by rw [hunused]; nofun)
  have hreaping := hordered.not_reaping child (by rw [hunused]; nofun)
  cases hnext
  refine hordered.work hplace ⟨rfl, rfl, rfl, rfl⟩ rfl
    (hordered.custody.touch hfree ⟨hlock, nofun, fun _ => nofun⟩)
    (slots_update fun worker _ => ⟨hforking worker, hreaping worker⟩) (Or.inl rfl) ?_ nofun nofun
  rintro embryo ⟨⟩
  refine ⟨⟨?_, ?_, hfree⟩, fun other _ => hforking other⟩
  · dsimp only
    rw [update_self]
  · dsimp only
    rw [update_self]
    nofun

theorem Ordered.publish (hordered : Ordered machine) (hplace : machine.places hart = .running proc)
    (hstep : working machine hart proc .publish = some next) : Ordered next := by
  simp only [Scheduler.working] at hstep
  split at hstep
  · next child hfork =>
      obtain ⟨hlock, hnext⟩ := Option.ite_none_right_eq_some.mp hstep
      obtain ⟨hembryo, hunique⟩ := hordered.forking proc child hfork
      have hreaping := hordered.not_reaping child (by rw [hembryo.state]; nofun)
      cases hnext
      exact hordered.work hplace ⟨rfl, rfl, rfl, rfl⟩ rfl (hordered.custody.touch hembryo.free
          ⟨hlock, nofun, fun _ => hembryo.saved⟩) (slots_update fun worker hne =>
          ⟨fun hother => hne (hunique worker hother), hreaping worker⟩)
        (Or.inl rfl) nofun nofun nofun
  · cases hstep

theorem Ordered.reap (hordered : Ordered machine) (hplace : machine.places hart = .running proc)
    (hstep : working machine hart proc .reap = some next) : Ordered next := by
  simp only [Scheduler.working] at hstep
  split at hstep
  · next child hreap =>
      obtain ⟨hlock, hnext⟩ := Option.ite_none_right_eq_some.mp hstep
      have hzombie := (hordered.reaping proc child hreap).1
      have hfree := hordered.free_of_lock hlock (by rw [hzombie]; exact ⟨nofun, nofun⟩)
      have hforking := hordered.not_forking child (by rw [hzombie]; nofun)
      have hholds : (machine.tasks proc).holds = true := by
        rw [hreap]
        rfl
      cases hnext
      refine hordered.work hplace ⟨rfl, rfl, rfl, rfl⟩ rfl (hordered.custody.touch hfree
          ⟨hlock, nofun, fun hstate => hstate.elim nofun nofun⟩)
        (slots_update fun worker hne => ⟨hforking worker, fun hother => hne ?_⟩)
        (Or.inr (Or.inr hholds)) nofun nofun nofun
      exact hordered.holder_unique hholds (by rw [hother]; rfl)
  · cases hstep

theorem Ordered.working (hordered : Ordered machine) {move : Move procs}
    (hadmitted : Admitted machine (hart, move)) (hplace : machine.places hart = .running proc)
    (hstep : working machine hart proc move = some next) : Ordered next := by
  cases move with
  | alloc child => exact hordered.alloc hplace hstep
  | publish => exact hordered.publish hplace hstep
  | reap => exact hordered.reap hplace hstep
  | sleep n =>
    have hblock (htask : (machine.tasks proc).holds = false ∧
        (∀ child, machine.tasks proc ≠ .forking child) ∧
        ∀ child, machine.tasks proc ≠ .reaping child) :
        Ordered (machine.block hart proc (.other n)) :=
      hordered.leave hplace rfl rfl rfl rfl (update_eq_self _ _).symm rfl
        ⟨trivial, rfl, nofun⟩ (Or.inl rfl) htask
    simp only [Scheduler.working] at hstep
    split at hstep
    · next htask =>
        obtain ⟨-, ⟨⟩⟩ := Option.ite_none_right_eq_some.mp hstep
        exact hblock (by rw [htask]; exact ⟨rfl, nofun, nofun⟩)
    · next htask =>
        obtain ⟨-, ⟨⟩⟩ := Option.ite_none_right_eq_some.mp hstep
        exact hblock (by rw [htask]; exact ⟨rfl, nofun, nofun⟩)
    · cases hstep
  | kill target =>
    obtain ⟨hlock, ⟨⟩⟩ := Option.ite_none_right_eq_some.mp hstep
    exact (hordered.wakeUp hlock).congr ⟨rfl, rfl, rfl, rfl⟩ rfl rfl rfl
  | openFile | chdir =>
    obtain ⟨-, ⟨⟩⟩ := Option.ite_none_right_eq_some.mp hstep
    exact hordered.congr ⟨rfl, rfl, rfl, rfl⟩ rfl rfl rfl
  | link =>
    simp only [Scheduler.working] at hstep
    split at hstep
    · obtain ⟨-, ⟨⟩⟩ := Option.ite_none_right_eq_some.mp hstep
      exact hordered.turn hplace ⟨rfl, rfl, rfl, rfl⟩ rfl rfl (Or.inl rfl)
        nofun nofun nofun
    · cases hstep
  | wait =>
    obtain ⟨⟨-, hlock⟩, ⟨⟩⟩ := Option.ite_none_right_eq_some.mp hstep
    exact hordered.turn hplace ⟨rfl, rfl, rfl, rfl⟩ rfl rfl
      (Or.inr (Or.inl hlock)) nofun (fun _ => rfl) nofun
  | find child =>
    obtain ⟨⟨htask, -, hlock, hzombie⟩, ⟨⟩⟩ := Option.ite_none_right_eq_some.mp hstep
    obtain ⟨cpu, hcpu, hheld⟩ := hordered.holding proc (by rw [htask]; rfl)
    obtain rfl := hordered.running_unique hplace hcpu
    refine hordered.turn hplace ⟨rfl, rfl, rfl, rfl⟩ rfl rfl (Or.inl rfl)
      nofun (fun _ => hheld) ?_
    rintro found ⟨⟩
    exact ⟨hzombie, hlock⟩
  | giveUp =>
    obtain ⟨htask, ⟨⟩⟩ := Option.ite_none_right_eq_some.mp hstep
    exact hordered.turn hplace ⟨rfl, rfl, rfl, rfl⟩ rfl rfl
      (Or.inr (Or.inr (by rw [htask]; rfl))) nofun nofun nofun
  | nap =>
    obtain ⟨⟨htask, -⟩, ⟨⟩⟩ := Option.ite_none_right_eq_some.mp hstep
    exact hordered.leave hplace rfl rfl rfl rfl rfl rfl
      ⟨trivial, rfl, nofun⟩ (Or.inr (by rw [htask]; rfl)) ⟨rfl, nofun, nofun⟩
  | exit =>
    obtain ⟨-, ⟨⟩⟩ := Option.ite_none_right_eq_some.mp hstep
    exact hordered.turn hplace ⟨rfl, rfl, rfl, rfl⟩ rfl rfl (Or.inl rfl)
      nofun nofun nofun
  | reparent =>
    simp only [Scheduler.working] at hstep
    split at hstep
    · obtain ⟨hlock, ⟨⟩⟩ := Option.ite_none_right_eq_some.mp hstep
      exact hordered.turn hplace ⟨rfl, rfl, rfl, rfl⟩ rfl rfl
        (Or.inr (Or.inl hlock)) nofun (fun _ => rfl) nofun
    · cases hstep
  | visit =>
    simp only [Scheduler.working] at hstep
    split at hstep
    · next path status address target rest htask =>
        obtain ⟨woken, hwoken, rfl⟩ := Option.map_eq_some_iff.mp hstep
        have hsame := wakeTarget_same hwoken
        obtain ⟨cpu, hcpu, hheld⟩ := hordered.holding proc (by rw [htask]; rfl)
        obtain rfl := hordered.running_unique hplace hcpu
        refine (hordered.wakeTarget hwoken).turn (hsame.1.symm ▸ hplace)
          ⟨rfl, rfl, rfl, rfl⟩ rfl rfl (Or.inl rfl) nofun (fun _ => ?_) nofun
        exact hsame.2 ▸ hheld
    · cases hstep
  | finish =>
    simp only [Scheduler.working] at hstep
    split at hstep
    · next path status htask =>
        obtain ⟨hlock, ⟨⟩⟩ := Option.ite_none_right_eq_some.mp hstep
        cases path with
        | killed =>
          have hstays := hadmitted proc hplace
          rw [htask] at hstays
          cases hstays
        | manager =>
          exact hordered.leave hplace rfl rfl rfl rfl rfl rfl
            ⟨trivial, rfl, nofun⟩ (Or.inr (by rw [htask]; rfl)) ⟨rfl, nofun, nofun⟩
    · cases hstep
  | _ => cases hstep

theorem Ordered.step (hordered : Ordered machine)
    {action : Fin harts × Move procs} (hadmitted : Admitted machine action)
    (hstep : step machine action = some next) : Ordered next := by
  obtain ⟨hart, move⟩ := action
  unfold Scheduler.step at hstep
  split at hstep
  · split at hstep
    all_goals first | exact hordered.wakeTarget hstep | cases hstep
  · next heq =>
      cases heq
      split at hstep
      · next hswitch =>
          cases hstep
          exact hordered.switching hswitch
      · split at hstep
        · next hplace => exact hordered.working hadmitted hplace hstep
        · cases hstep

end Steps

/-! ## Runs -/

/-- A process runs on at most one CPU. -/
structure Single (machine : Machine procs harts) : Prop where
  current : ∀ hart other proc, machine.process hart = some proc →
    machine.process other = some proc → hart = other
  running : ∀ proc, (machine.slots proc).state = .running →
    ∃! hart, machine.process hart = some proc
  picked : ∀ hart proc next, step machine (hart, .scan) = some next →
    next.places hart = .picked proc → (machine.slots proc).context ≠ .stale ∧
      ∀ cpu, machine.onStack cpu ≠ some proc
  handed : ∀ hart child next, step machine (hart, .alloc child) = some next →
    ∀ cpu, machine.process cpu ≠ some child

section Runs

variable {machine first last : Machine procs harts}
variable {hart : Fin harts} {proc : Fin procs}

theorem has_of_names {place : Location procs}
    (hnames : names place = some proc) : place.has = some proc := by
  cases place with
  | seek | picked | cleared => cases hnames
  | _ => exact hnames

theorem Ordered.has_of_process (hordered : Ordered machine)
    (hprocess : machine.process hart = some proc) : (machine.places hart).has = some proc := by
  rw [hordered.named hart] at hprocess
  exact has_of_names hprocess

theorem Ordered.has_of_onStack (hordered : Ordered machine)
    (hstack : machine.onStack hart = some proc) : (machine.places hart).has = some proc := by
  rw [Machine.onStack] at hstack
  split at hstack
  · next hplace => rwa [hplace]
  · next hplace => rwa [hplace]
  · next hplace => rwa [hplace]
  · rw [hordered.stack hart] at hstack
    cases hstack

/-- A process whose state is `Running` is the one of the CPU that has it. -/
theorem Ordered.exists_process (hordered : Ordered machine)
    (hrunning : (machine.slots proc).state = .running) :
    ∃ hart, machine.process hart = some proc := by
  by_contra hnone
  have hfree : ∀ hart, (machine.places hart).has ≠ some proc := by
    intro hart hhas
    have hfits := hordered.custody.fits hart proc hhas
    refine hnone ⟨hart, ?_⟩
    rw [hordered.named hart]
    revert hfits hhas
    cases machine.places hart with
    | seek => nofun
    | picked | cleared =>
      intro _ hfits
      have hstate := hfits.1
      rw [hrunning] at hstate
      cases hstate
    | _ => exact fun hhas _ => hhas
  exact (hordered.custody.rest proc hfree).state hrunning

/-- The slot that `seek_runnable` takes. -/
theorem scan_picks {next : Machine procs harts} (hstep : step machine (hart, .scan) = some next)
    (hpicked : next.places hart = .picked proc) :
    (machine.slots proc).state = .runnable ∧ (machine.slots proc).lock = none := by
  simp only [step] at hstep
  split at hstep
  · next hswitch =>
      cases hstep
      simp only [Scheduler.switching] at hswitch
      split at hswitch
      · cases hswitch
        simp at hpicked
      · split at hswitch
        · cases hswitch
        next hlock =>
        split at hswitch
        · next hrunnable =>
            cases hswitch
            dsimp only at hpicked
            rw [update_self] at hpicked
            cases hpicked
            exact ⟨hrunnable, not_not.mp hlock⟩
        · cases hswitch
          simp at hpicked
      · cases hswitch
  · split at hstep
    · cases hstep
    · cases hstep

theorem alloc_unused {child : Fin procs} {next : Machine procs harts}
    (hstep : step machine (hart, .alloc child) = some next) :
    (machine.slots child).state = .unused ∧ (machine.slots child).lock = none := by
  simp only [step, Scheduler.switching] at hstep
  split at hstep
  · obtain ⟨⟨-, hlock, hunused⟩, -⟩ := Option.ite_none_right_eq_some.mp hstep
    exact ⟨hunused, hlock⟩
  · cases hstep

theorem Ordered.single (hordered : Ordered machine) : Single machine where
  current := fun hart other proc hhart hother =>
    hordered.custody.own hart other proc (hordered.has_of_process hhart)
      (hordered.has_of_process hother)
  running := by
    intro proc hrunning
    obtain ⟨hart, hprocess⟩ := hordered.exists_process hrunning
    refine ⟨hart, hprocess, fun other hother => ?_⟩
    exact hordered.custody.own other hart proc
      (hordered.has_of_process hother) (hordered.has_of_process hprocess)
  picked := by
    intro hart proc next hstep hpicked
    obtain ⟨hrunnable, hlock⟩ := scan_picks hstep hpicked
    have hfree := hordered.free_of_lock hlock (by rw [hrunnable]; exact ⟨nofun, nofun⟩)
    exact ⟨(hordered.custody.rest proc hfree).saved (Or.inl hrunnable),
      fun cpu hstack => hfree cpu (hordered.has_of_onStack hstack)⟩
  handed := by
    intro hart child next hstep cpu hcpu
    obtain ⟨hunused, hlock⟩ := alloc_unused hstep
    exact hordered.free_of_lock hlock (by rw [hunused]; exact ⟨nofun, nofun⟩)
      cpu (hordered.has_of_process hcpu)

/-- Any number of CPUs, any interleaving in which processes leave by
`ProcManager::exit`. -/
theorem run_single {initProc : Fin procs}
    {record : List (Machine procs harts × Fin harts × Move procs)}
    (hrun : Run step (boot initProc) record last)
    (hadmitted : ∀ entry ∈ record, Admitted entry.1 entry.2) :
    Single last ∧ ∀ entry ∈ record, Single entry.1 := by
  have hinvariant := hrun.invariant (fun machine action next hordered hadmitted hstep =>
      Ordered.step hordered hadmitted hstep) (ordered_boot initProc) hadmitted
  exact ⟨hinvariant.1.single, fun entry hentry => (hinvariant.2 entry hentry).single⟩

end Runs

instance (machine : Machine procs harts) (action : Fin harts × Move procs) :
    Decidable (Admitted machine action) := by
  unfold Admitted
  split <;> infer_instance

def turns (hart : Fin harts) (moves : List (Move procs)) : List (Fin harts × Move procs) :=
  moves.map (hart, ·)

/-- The first process forks on one CPU; the child runs on the other one and
leaves, and its slot is freed and handed out again. -/
def reuse : List (Fin 2 × Move 2) :=
  turns 0 [.scan, .setProc, .timer, .acquire, .enter, .release, .alloc 1, .publish, .link] ++
  turns 1 [.scan, .scan, .setProc, .acquire, .enter, .release, .timer, .part,
    .clear, .drop, .scan, .scan, .setProc, .timer, .acquire, .enter, .release,
    .exit .manager 3, .reparent, .visit, .visit, .finish, .part, .clear, .drop] ++
  turns 0 [.wait, .find 1, .reap, .alloc 1]

theorem run_single_reuse : ∃ record last,
    Run step (boot 0) record last ∧ record.map Prod.snd = reuse ∧
      (Single last ∧ ∀ entry ∈ record, Single entry.1) ∧
      last.process 0 = some 0 ∧ last.process 1 = none ∧ last.tasks 0 = .forking 1 := by
  have hsome : ((reuse.foldlM (guarded Admitted step) (boot 0)).any fun last =>
      last.process 0 = some 0 ∧ last.process 1 = none ∧ last.tasks 0 = .forking 1) = true := by
    decide +kernel
  obtain ⟨record, last, hrun, hactions, hadmitted, hend⟩ := Run.of_any_admitted hsome
  exact ⟨record, last, hrun, hactions, run_single hrun hadmitted, hend⟩

end RxOs.SingleCpu
