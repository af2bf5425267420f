import RxOs.Process.SingleCpu

/-!
# Leaving by `ProcManager::exit` and by `process::exit`

A process that leaves has closed its files, given up its entry in `idx_pids`
and its children, and woken its parent before anyone can see that it is a
zombie; the CPU has then left its stack.  This holds as long as nobody comes to
the end of `process::exit`.
-/

namespace RxOs.ExitPaths

open Function Transition Scheduler SingleCpu
open WaitList (ProcState)

variable {procs harts : ℕ}

/-! ## What a process leaves behind -/

/-- The files are closed; `process::exit` keeps the entry in `idx_pids`. -/
structure Emptied (machine : Machine procs harts) (path : Path)
    (proc : Fin procs) : Prop where
  files : machine.files proc = fun _ => none
  cwd : machine.cwd proc = none
  idxPids : path = .manager → machine.idxPids proc = none

/-- The children have gone to the init process. -/
def Childless (machine : Machine procs harts) (proc : Fin procs) : Prop :=
  proc ≠ machine.initProc → ∀ child, machine.waitList child ≠ some proc

/-- Everyone who sleeps on the address of the parent is still to be visited. -/
def Called (machine : Machine procs harts) (proc : Fin procs)
    (visits : List (Option (Fin procs) × Fin procs)) : Prop :=
  ∀ parent target, machine.waitList proc = some parent → (machine.slots target).state = .sleeping →
    (machine.slots target).chan = some (.addr parent) → (some parent, target) ∈ visits

/-- How far a process that leaves has come. -/
structure Leaving (machine : Machine procs harts) : Prop where
  leaving : ∀ proc path status, machine.tasks proc = .leaving path status →
    Emptied machine path proc
  dying : ∀ proc path status visits, machine.tasks proc = .dying path status visits →
    Emptied machine path proc ∧ Childless machine proc ∧ Called machine proc visits
  zombie : ∀ proc, (machine.slots proc).state = .zombie →
    Emptied machine .manager proc ∧ Childless machine proc
  idle : ∀ proc, (machine.slots proc).state = .unused ∨
    (machine.slots proc).state = .zombie → machine.tasks proc = .idle
  embryo : ∀ proc child, machine.tasks proc = .forking child → machine.tasks child = .idle

theorem leaving_boot (initProc : Fin procs) :
    Leaving (boot initProc : Machine procs harts) where
  leaving := nofun
  dying := nofun
  zombie := by
    intro proc hzombie
    simp only [boot] at hzombie
    by_cases hproc : proc = initProc
    · rw [hproc, update_self] at hzombie
      cases hzombie
    · rw [update_of_ne hproc] at hzombie
      cases hzombie
  idle := fun _ _ => rfl
  embryo := nofun

/-! ## Steps -/

/-- The slot does not become that of a zombie or a free one, and nobody goes to
sleep on the address of a process. -/
structure Calm (old new : Slot procs harts) : Prop where
  zombie : new.state = .zombie → old.state = .zombie
  unused : new.state = .unused → old.state = .unused
  sleeping : ∀ parent, new.state = .sleeping → new.chan = some (.addr parent) →
    old.state = .sleeping ∧ old.chan = some (.addr parent)

theorem Calm.refl (slot : Slot procs harts) : Calm slot slot :=
  ⟨id, id, fun _ hstate hchan => ⟨hstate, hchan⟩⟩

theorem Calm.of_state {old new : Slot procs harts}
    (hstate : new.state = .runnable ∨ new.state = .running ∨
      new.state = .allocated) : Calm old new := by
  rcases hstate with hstate | hstate | hstate
  all_goals
    refine ⟨?_, ?_, ?_⟩
    all_goals
      rw [hstate]
      nofun

section Steps

variable {machine next : Machine procs harts}
variable {hart : Fin harts} {proc child target : Fin procs}
variable {slot : Slot procs harts}

theorem calm_update (hcalm : Calm (machine.slots proc) slot) (other : Fin procs) :
    Calm (machine.slots other) (update machine.slots proc slot other) := by
  by_cases hother : other = proc
  · rw [hother, update_self]
    exact hcalm
  · rw [update_of_ne hother]
    exact Calm.refl _

/-- The slots change, and nothing that a process leaves behind does. -/
structure Passes (machine next : Machine procs harts) : Prop where
  tasks : next.tasks = machine.tasks
  files : next.files = machine.files
  cwd : next.cwd = machine.cwd
  idxPids : next.idxPids = machine.idxPids
  waitList : next.waitList = machine.waitList
  initProc : next.initProc = machine.initProc
  slots : ∀ other, Calm (machine.slots other) (next.slots other)

theorem Passes.same_slots (htasks : next.tasks = machine.tasks)
    (hfiles : next.files = machine.files) (hcwd : next.cwd = machine.cwd)
    (hidxPids : next.idxPids = machine.idxPids) (hwaitList : next.waitList = machine.waitList)
    (hinitProc : next.initProc = machine.initProc)
    (hslots : next.slots = machine.slots) : Passes machine next :=
  ⟨htasks, hfiles, hcwd, hidxPids, hwaitList, hinitProc, fun _ => hslots ▸ Calm.refl _⟩

theorem Leaving.passes (hleaving : Leaving machine)
    (hpasses : Passes machine next) : Leaving next := by
  have hemptied : ∀ path proc, Emptied machine path proc → Emptied next path proc := by
    rintro path proc ⟨hfiles, hcwd, hidx⟩
    exact ⟨by rw [hpasses.files, hfiles], by rw [hpasses.cwd, hcwd],
      fun hpath => by rw [hpasses.idxPids, hidx hpath]⟩
  have hchildless : ∀ proc, Childless machine proc → Childless next proc := by
    intro proc hchildless
    rw [Childless, hpasses.waitList, hpasses.initProc]
    exact hchildless
  refine ⟨?_, ?_, ?_, ?_, ?_⟩
  · intro proc path status htask
    rw [hpasses.tasks] at htask
    exact hemptied path proc (hleaving.leaving proc path status htask)
  · intro proc path status visits htask
    rw [hpasses.tasks] at htask
    obtain ⟨hempty, hnone, hcalled⟩ := hleaving.dying proc path status visits htask
    refine ⟨hemptied path proc hempty, hchildless proc hnone, ?_⟩
    intro parent target hparent hsleeping hchan
    rw [hpasses.waitList] at hparent
    obtain ⟨hslept, hsame⟩ := (hpasses.slots target).sleeping parent hsleeping hchan
    exact hcalled parent target hparent hslept hsame
  · intro proc hzombie
    obtain ⟨hempty, hnone⟩ := hleaving.zombie proc ((hpasses.slots proc).zombie hzombie)
    exact ⟨hemptied _ proc hempty, hchildless proc hnone⟩
  · intro proc hstate
    rw [hpasses.tasks]
    exact hleaving.idle proc (hstate.imp (hpasses.slots proc).unused (hpasses.slots proc).zombie)
  · rw [hpasses.tasks]
    exact hleaving.embryo

theorem passes_of_slot (hslots : next.slots = update machine.slots proc slot)
    (hcalm : Calm (machine.slots proc) slot) (htasks : next.tasks = machine.tasks)
    (hfiles : next.files = machine.files) (hcwd : next.cwd = machine.cwd)
    (hidxPids : next.idxPids = machine.idxPids) (hwaitList : next.waitList = machine.waitList)
    (hinitProc : next.initProc = machine.initProc) : Passes machine next :=
  ⟨htasks, hfiles, hcwd, hidxPids, hwaitList, hinitProc,
    fun other => hslots ▸ calm_update hcalm other⟩

theorem passes_tryYield (hstep : tryYield machine hart = some next) : Passes machine next := by
  rw [tryYield] at hstep
  split at hstep
  · cases hstep
    exact Passes.same_slots rfl rfl rfl rfl rfl rfl rfl
  · split at hstep
    · cases hstep
    split at hstep
    · cases hstep
      exact passes_of_slot rfl (Calm.of_state (Or.inl rfl)) rfl rfl rfl rfl
        rfl rfl
    · cases hstep
      exact Passes.same_slots rfl rfl rfl rfl rfl rfl rfl

theorem passes_switching {move : Move procs} (hstep : switching machine hart move = some next) :
    Passes machine next := by
  rw [switching.eq_def] at hstep
  split at hstep <;> try split at hstep
  all_goals first
    | cases hstep
    | exact passes_tryYield hstep
    | skip
  -- the steps that leave the slots alone, then the others in order
  all_goals first
    | exact Passes.same_slots rfl rfl rfl rfl rfl rfl rfl
    | exact passes_of_slot rfl
        ⟨id, id, fun _ hstate hchan => ⟨hstate, hchan⟩⟩ rfl rfl rfl rfl rfl rfl
    | skip
  · obtain ⟨-, hstep⟩ := Option.ite_none_left_eq_some.mp hstep
    split at hstep <;> cases hstep
    · exact passes_of_slot rfl (Calm.of_state (Or.inr (Or.inr rfl))) rfl rfl
        rfl rfl rfl rfl
    · exact Passes.same_slots rfl rfl rfl rfl rfl rfl rfl
  · obtain ⟨-, ⟨⟩⟩ := Option.ite_none_right_eq_some.mp hstep
    exact passes_of_slot rfl (Calm.of_state (Or.inr (Or.inl rfl))) rfl rfl rfl
      rfl rfl rfl
  · refine passes_of_slot rfl ⟨id, id, fun _ hstate hchan => ⟨hstate, ?_⟩⟩
      rfl rfl rfl rfl rfl rfl
    dsimp only at hchan
    split at hchan
    · cases hchan
    · exact hchan
  · exact passes_tryYield (Option.ite_none_left_eq_some.mp hstep).2

theorem calm_wakeUp (channel : Option (Channel procs))
    (slot : Slot procs harts) : Calm slot (slot.wakeUp channel) := by
  rw [Slot.wakeUp]
  split
  · exact Calm.of_state (Or.inl rfl)
  · exact Calm.refl slot

theorem passes_wakeTarget {channel : Option (Channel procs)}
    (hstep : wakeTarget machine hart channel target = some next) : Passes machine next := by
  rw [wakeTarget] at hstep
  split at hstep
  · cases hstep
    exact Passes.same_slots rfl rfl rfl rfl rfl rfl rfl
  · obtain ⟨-, ⟨⟩⟩ := Option.ite_none_right_eq_some.mp hstep
    exact passes_of_slot rfl (calm_wakeUp channel _) rfl rfl rfl rfl rfl rfl

/-- A process changes only if it has nothing to do. -/
def Spares (machine next : Machine procs harts) (proc : Fin procs) : Prop :=
  Calm (machine.slots proc) (next.slots proc) ∧ next.files proc = machine.files proc ∧
      next.cwd proc = machine.cwd proc ∧ next.idxPids proc = machine.idxPids proc ∨
    machine.tasks proc = .idle ∧ (next.slots proc).state ≠ .zombie

/-- A process that runs goes on to another task.  Of the other processes only
those change that have nothing to do. -/
theorem Leaving.work (hleaving : Leaving machine) {task : Task procs}
    (htasks : next.tasks = update machine.tasks proc task)
    (hothers : ∀ other, other ≠ proc → Spares machine next other)
    (hchildless : ∀ other, other ≠ proc → Childless machine other → Childless next other)
    (hcalled : ∀ other path status visits, other ≠ proc →
      machine.tasks other = .dying path status visits → Called next other visits)
    (hunborn : ∀ other, machine.tasks other ≠ .forking proc)
    (hempty : ∀ path status, task = .leaving path status → Emptied next path proc)
    (hdying : ∀ path status visits, task = .dying path status visits →
      Emptied next path proc ∧ Childless next proc ∧ Called next proc visits)
    (hzombie : (next.slots proc).state = .zombie →
      task = .idle ∧ Emptied next .manager proc ∧ Childless next proc)
    (hunused : (next.slots proc).state ≠ .unused)
    (hforking : ∀ child, task = .forking child → child ≠ proc ∧
      machine.tasks child = .idle) : Leaving next := by
  have hself : next.tasks proc = task := by rw [htasks, update_self]
  have hother : ∀ other, other ≠ proc →
      next.tasks other = machine.tasks other := by
    intro other hne
    rw [htasks, update_of_ne hne]
  have hkept : ∀ path other, other ≠ proc →
      machine.tasks other ≠ .idle ∨ (next.slots other).state = .zombie →
      Emptied machine path other → Emptied next path other := by
    rintro path other hne hbusy ⟨hfiles, hcwd, hidx⟩
    rcases hothers other hne with ⟨-, hfiles', hcwd', hidx'⟩ | ⟨hidle, hlive⟩
    · exact ⟨by rw [hfiles', hfiles], by rw [hcwd', hcwd], fun hpath => by rw [hidx', hidx hpath]⟩
    · rcases hbusy with hbusy | hdead
      · exact absurd hidle hbusy
      · exact absurd hdead hlive
  refine ⟨?_, ?_, ?_, ?_, ?_⟩
  · intro other path status htask
    by_cases hne : other = proc
    · rw [hne, hself] at htask
      rw [hne]
      exact hempty path status htask
    · rw [hother other hne] at htask
      exact hkept path other hne (Or.inl (by rw [htask]; nofun))
        (hleaving.leaving other path status htask)
  · intro other path status visits htask
    by_cases hne : other = proc
    · rw [hne, hself] at htask
      rw [hne]
      exact hdying path status visits htask
    · rw [hother other hne] at htask
      obtain ⟨hemptied, hnone, -⟩ := hleaving.dying other path status visits htask
      exact ⟨hkept path other hne (Or.inl (by rw [htask]; nofun)) hemptied,
        hchildless other hne hnone, hcalled other path status visits hne htask⟩
  · intro other hdead
    by_cases hne : other = proc
    · rw [hne] at hdead ⊢
      exact (hzombie hdead).2
    · have hwas : (machine.slots other).state = .zombie := by
        rcases hothers other hne with ⟨hcalm, -⟩ | ⟨-, hlive⟩
        · exact hcalm.zombie hdead
        · exact absurd hdead hlive
      obtain ⟨hemptied, hnone⟩ := hleaving.zombie other hwas
      exact ⟨hkept _ other hne (Or.inr hdead) hemptied, hchildless other hne hnone⟩
  · intro other hstate
    by_cases hne : other = proc
    · rw [hne] at hstate ⊢
      rw [hself]
      exact (hzombie (hstate.resolve_left hunused)).1
    · rw [hother other hne]
      rcases hothers other hne with ⟨hcalm, -⟩ | ⟨hidle, -⟩
      · exact hleaving.idle other (hstate.imp hcalm.unused hcalm.zombie)
      · exact hidle
  · intro forker child hforker
    by_cases hne : forker = proc
    · rw [hne, hself] at hforker
      obtain ⟨hchild, hidle⟩ := hforking child hforker
      rw [hother child hchild, hidle]
    · rw [hother forker hne] at hforker
      have hchild : child ≠ proc := by
        rintro rfl
        exact hunborn forker hforker
      rw [hother child hchild]
      exact hleaving.embryo forker child hforker

/-- A process that runs is not one that `fork` is making. -/
theorem unborn (hordered : Ordered machine)
    (hplace : machine.places hart = .running proc) (other : Fin procs) :
    machine.tasks other ≠ .forking proc := by
  intro hfork
  refine (hordered.forking other proc hfork).1.free hart ?_
  rw [hplace]
  rfl

theorem running_state (hordered : Ordered machine) (hplace : machine.places hart = .running proc) :
    (machine.slots proc).state = .running :=
  (hordered.at_place hplace rfl).2.1

/-- While a process has the lock of the wait list, or nobody has, no other
process is dying. -/
theorem not_dying (hordered : Ordered machine)
    (hlock : machine.waitLock = none ∨ (machine.tasks proc).holds = true)
    {other : Fin procs} {path : Path} {status : ℕ}
    {visits : List (Option (Fin procs) × Fin procs)} (hother : other ≠ proc) :
    machine.tasks other ≠ .dying path status visits := by
  intro htask
  have hholds : (machine.tasks other).holds = true := by
    rw [htask]
    rfl
  rcases hlock with hnone | hproc
  · obtain ⟨cpu, -, hheld⟩ := hordered.holding other hholds
    rw [hnone] at hheld
    cases hheld
  · exact hother (hordered.holder_unique hproc hholds)

theorem Called.calm {visits : List (Option (Fin procs) × Fin procs)}
    (hcalled : Called machine proc visits) (hwaitList : next.waitList = machine.waitList)
    (hslots : ∀ other, Calm (machine.slots other) (next.slots other)) :
    Called next proc visits := by
  intro parent target hparent hsleeping hchan
  rw [hwaitList] at hparent
  obtain ⟨hslept, hsame⟩ := (hslots target).sleeping parent hsleeping hchan
  exact hcalled parent target hparent hslept hsame

/-- A process that runs goes on to a task in which it does not leave; the wait
list stays as it is, and of the slots only one of a process that has nothing to
do changes. -/
theorem Leaving.turn (hleaving : Leaving machine) (hordered : Ordered machine)
    (hplace : machine.places hart = .running proc) {task : Task procs}
    (htasks : next.tasks = update machine.tasks proc task)
    (hinitProc : next.initProc = machine.initProc) (hwaitList : next.waitList = machine.waitList)
    (hself : next.slots proc = machine.slots proc)
    (hslots : ∀ other, Calm (machine.slots other) (next.slots other) ∨
      (machine.tasks proc).holds = true)
    (hothers : ∀ other, other ≠ proc → Spares machine next other)
    (htask : (∀ path status, task ≠ .leaving path status) ∧
      ∀ path status visits, task ≠ .dying path status visits)
    (hforking : ∀ child, task = .forking child → child ≠ proc ∧
      machine.tasks child = .idle) : Leaving next := by
  have hrunning : (next.slots proc).state = .running := by
    rw [hself]
    exact running_state hordered hplace
  refine hleaving.work htasks hothers ?_ ?_ (unborn hordered hplace)
    (fun path status hsame => absurd hsame (htask.1 path status)) (fun path status visits hsame =>
      absurd hsame (htask.2 path status visits))
    (by rw [hrunning]; nofun) (by rw [hrunning]; nofun) hforking
  · intro other _ hchildless
    rw [Childless, hwaitList, hinitProc]
    exact hchildless
  · intro other path status visits hne hdying
    by_cases hholds : (machine.tasks proc).holds = true
    · exact absurd hdying (not_dying hordered (Or.inr hholds) hne)
    · exact (hleaving.dying other path status visits hdying).2.2.calm
        hwaitList fun slot => (hslots slot).resolve_right hholds

theorem calm_of_ne {other : Fin procs} (hother : other ≠ proc) :
    Calm (machine.slots other) (update machine.slots proc slot other) := by
  rw [update_of_ne hother]
  exact Calm.refl _

theorem Leaving.alloc (hleaving : Leaving machine) (hordered : Ordered machine)
    (hplace : machine.places hart = .running proc)
    (hstep : working machine hart proc (.alloc child) = some next) : Leaving next := by
  obtain ⟨⟨-, -, hunused⟩, ⟨⟩⟩ := Option.ite_none_right_eq_some.mp hstep
  have hne : child ≠ proc := by
    rintro rfl
    cases (running_state hordered hplace).symm.trans hunused
  have hidle := hleaving.idle child (Or.inl hunused)
  refine hleaving.turn hordered hplace rfl rfl rfl (update_of_ne hne.symm ..) (fun other => Or.inl
      (calm_update (Calm.of_state (Or.inr (Or.inr rfl))) other)) ?_ ⟨nofun, nofun⟩ ?_
  · intro other _
    by_cases hother : other = child
    · subst hother
      exact Or.inr ⟨hidle, by simp⟩
    · exact Or.inl ⟨calm_update (Calm.of_state (Or.inr (Or.inr rfl))) other, rfl, rfl,
          update_of_ne hother ..⟩
  · rintro embryo ⟨⟩
    exact ⟨hne, hidle⟩

theorem Leaving.publish (hleaving : Leaving machine) (hordered : Ordered machine)
    (hplace : machine.places hart = .running proc)
    (hstep : working machine hart proc .publish = some next) : Leaving next := by
  simp only [working] at hstep
  split at hstep
  · next child hfork =>
      obtain ⟨-, ⟨⟩⟩ := Option.ite_none_right_eq_some.mp hstep
      have hidle := hleaving.embryo proc child hfork
      have hne : child ≠ proc := by
        rintro rfl
        exact unborn hordered hplace child hfork
      refine hleaving.turn hordered hplace rfl rfl rfl (update_of_ne hne.symm ..)
        (fun other => Or.inl (calm_update (Calm.of_state (Or.inl rfl)) other))
        ?_ ⟨by simp, by simp⟩ (by simp)
      intro other _
      by_cases hother : other = child
      · subst hother
        exact Or.inr ⟨hidle, by simp⟩
      · exact Or.inl ⟨calm_update (Calm.of_state (Or.inl rfl)) other,
          update_of_ne hother .., update_of_ne hother .., rfl⟩
  · cases hstep

theorem Leaving.reap (hleaving : Leaving machine) (hordered : Ordered machine)
    (hplace : machine.places hart = .running proc)
    (hstep : working machine hart proc .reap = some next) : Leaving next := by
  simp only [working] at hstep
  split at hstep
  · next child hreap =>
      obtain ⟨-, ⟨⟩⟩ := Option.ite_none_right_eq_some.mp hstep
      have hzombie := (hordered.reaping proc child hreap).1
      have hidle := hleaving.idle child (Or.inr hzombie)
      have hne : child ≠ proc := by
        rintro rfl
        cases (running_state hordered hplace).symm.trans hzombie
      refine hleaving.turn hordered hplace rfl rfl rfl
        (update_of_ne hne.symm ..) (fun _ => Or.inr (by rw [hreap]; rfl)) ?_
        ⟨by simp, by simp⟩ (by simp)
      intro other _
      by_cases hother : other = child
      · subst hother
        exact Or.inr ⟨hidle, by simp⟩
      · exact Or.inl ⟨calm_of_ne hother, rfl, rfl, rfl⟩
  · cases hstep

theorem Leaving.link (hleaving : Leaving machine) (hordered : Ordered machine)
    (hplace : machine.places hart = .running proc)
    (hstep : working machine hart proc .link = some next) : Leaving next := by
  have hrunning := running_state hordered hplace
  simp only [working] at hstep
  split at hstep
  · next child hlink =>
      obtain ⟨hlock, ⟨⟩⟩ := Option.ite_none_right_eq_some.mp hstep
      refine hleaving.work rfl (fun other _ => Or.inl ⟨Calm.refl _, rfl, rfl, rfl⟩) ?_
        (fun other path status visits hne hdying =>
          absurd hdying (not_dying hordered (Or.inl hlock) hne))
        (unborn hordered hplace) (by simp) (by simp) (by simp [hrunning])
        (by simp [hrunning]) (by simp)
      intro other hne hchildless hinit entry
      dsimp only
      by_cases hentry : entry = child
      · rw [hentry, update_self]
        exact fun hsame => hne (Option.some.inj hsame).symm
      · rw [update_of_ne hentry]
        exact hchildless hinit entry
  · cases hstep

theorem Leaving.nap (hleaving : Leaving machine) (hordered : Ordered machine)
    (hplace : machine.places hart = .running proc)
    (hstep : working machine hart proc .nap = some next) : Leaving next := by
  obtain ⟨⟨htask, -⟩, ⟨⟩⟩ := Option.ite_none_right_eq_some.mp hstep
  have hholds : (machine.tasks proc).holds = true := by rw [htask]; rfl
  refine hleaving.work rfl (fun other hne => Or.inl ⟨calm_of_ne hne, rfl, rfl, rfl⟩)
    (fun _ _ hchildless => hchildless) (fun other path status visits hne hdying =>
      absurd hdying (not_dying hordered (Or.inr hholds) hne))
    (unborn hordered hplace) nofun nofun ?_ ?_ nofun
  · intro hzombie
    simp [Machine.block] at hzombie
  · simp [Machine.block]

/-- `exit` closes the files. -/
theorem Leaving.exit (hleaving : Leaving machine) (hordered : Ordered machine)
    (hplace : machine.places hart = .running proc) {path : Path} {status : ℕ}
    (hstep : working machine hart proc (.exit path status) = some next) : Leaving next := by
  have hrunning := running_state hordered hplace
  obtain ⟨-, ⟨⟩⟩ := Option.ite_none_right_eq_some.mp hstep
  refine hleaving.work rfl ?_ (fun _ _ hchildless => hchildless)
    (fun other path status visits _ hdying => (hleaving.dying other path status visits hdying).2.2)
    (unborn hordered hplace) ?_ nofun (by simp [hrunning]) (by simp [hrunning]) nofun
  · intro other hne
    refine Or.inl ⟨Calm.refl _, update_of_ne hne .., update_of_ne hne .., ?_⟩
    cases path with
    | manager => exact update_of_ne hne ..
    | killed => rfl
  · rintro _ _ ⟨⟩
    refine ⟨update_self .., update_self .., ?_⟩
    rintro rfl
    exact update_self ..

/-- `reparent` gives the children away; everyone is still to be visited. -/
theorem Leaving.reparent (hleaving : Leaving machine) (hordered : Ordered machine)
    (hplace : machine.places hart = .running proc)
    (hstep : working machine hart proc .reparent = some next) : Leaving next := by
  have hrunning := running_state hordered hplace
  simp only [working] at hstep
  split at hstep
  · next path status htask =>
      obtain ⟨hlock, hnext⟩ := Option.ite_none_right_eq_some.mp hstep
      obtain ⟨hfiles, hcwd, hidx⟩ := hleaving.leaving proc path status htask
      cases hnext
      refine hleaving.work rfl (fun other _ => Or.inl ⟨Calm.refl _, rfl, rfl, rfl⟩) ?_
        (fun other path status visits hne hdying =>
          absurd hdying (not_dying hordered (Or.inl hlock) hne))
        (unborn hordered hplace) (by simp) ?_ (by simp [hrunning]) (by simp [hrunning]) (by simp)
      · intro other _ hchildless hinit child
        dsimp only
        split
        · exact fun hsame => hinit (Option.some.inj hsame).symm
        · exact hchildless hinit child
      · rintro _ _ _ ⟨⟩
        refine ⟨⟨hfiles, hcwd, hidx⟩, ?_, ?_⟩
        · intro hinit child
          dsimp only
          split
          · exact fun hsame => hinit (Option.some.inj hsame).symm
          · next hother => exact hother
        · intro parent target hparent _ _
          refine List.mem_append_right _ (List.mem_map.mpr ⟨target, List.mem_finRange target, ?_⟩)
          exact congrArg (·, target) hparent
  · cases hstep

/-- A visit of `exit`: who sleeps on the address is awake afterwards. -/
theorem Called.visit {parent : Option (Fin procs)} {rest : List (Option (Fin procs) × Fin procs)}
    (hcalled : Called machine proc ((parent, target) :: rest))
    (hself : machine.process hart = some proc) (hrunning : (machine.slots proc).state = .running)
    (hstep : wakeTarget machine hart (parent.map .addr) target = some next) :
    Called next proc rest := by
  have hpasses := passes_wakeTarget hstep
  have hcalm := hcalled.calm hpasses.waitList hpasses.slots
  intro address sleeper hparent hsleeping hchan
  refine (List.mem_cons.mp (hcalm address sleeper hparent hsleeping hchan)).resolve_left ?_
  rintro ⟨⟩
  rw [wakeTarget] at hstep
  split at hstep
  · next hown =>
      obtain rfl := Option.some.inj (hself.symm.trans hown)
      cases hstep
      rw [hrunning] at hsleeping
      cases hsleeping
  · obtain ⟨-, ⟨⟩⟩ := Option.ite_none_right_eq_some.mp hstep
    dsimp only at hsleeping hchan
    rw [update_self, Slot.wakeUp] at hsleeping hchan
    split at hsleeping
    · cases hsleeping
    · next hasleep =>
        rw [if_neg hasleep] at hchan
        exact hasleep ⟨hsleeping, hchan⟩

theorem Leaving.visit (hleaving : Leaving machine) (hordered : Ordered machine)
    (hplace : machine.places hart = .running proc)
    (hstep : working machine hart proc .visit = some next) : Leaving next := by
  have hrunning := running_state hordered hplace
  have hnamed := hordered.named hart
  rw [hplace] at hnamed
  simp only [working] at hstep
  split at hstep
  · next path status address target rest htask =>
      obtain ⟨woken, hwoken, rfl⟩ := Option.map_eq_some_iff.mp hstep
      have hpasses := passes_wakeTarget hwoken
      have hafter := hordered.wakeTarget hwoken
      have hplace' : woken.places hart = .running proc := by rw [(wakeTarget_same hwoken).1, hplace]
      have hcalled := (hleaving.dying proc path status _ htask).2.2
      have hdone := hcalled.visit hnamed hrunning hwoken
      rw [← hpasses.tasks] at htask
      obtain ⟨hemptied, hchildless, -⟩ := (hleaving.passes hpasses).dying proc path status _ htask
      have hrunning' := running_state hafter hplace'
      refine (hleaving.passes hpasses).work rfl (fun other _ => Or.inl ⟨Calm.refl _, rfl, rfl, rfl⟩)
        (fun _ _ hnone => hnone) (fun other path status visits _ hdying =>
          ((hleaving.passes hpasses).dying other path status visits hdying).2.2)
        (unborn hafter hplace') (by simp) ?_ (by simp [hrunning']) (by simp [hrunning']) (by simp)
      rintro _ _ _ ⟨⟩
      exact ⟨⟨hemptied.files, hemptied.cwd, hemptied.idxPids⟩, hchildless, hdone⟩
  · cases hstep

theorem Leaving.finish (hleaving : Leaving machine) (hordered : Ordered machine)
    (hadmitted : Admitted machine (hart, .finish)) (hplace : machine.places hart = .running proc)
    (hstep : working machine hart proc .finish = some next) : Leaving next := by
  simp only [working] at hstep
  split at hstep
  · next path status htask =>
      obtain ⟨-, hnext⟩ := Option.ite_none_right_eq_some.mp hstep
      have hholds : (machine.tasks proc).holds = true := by
        rw [htask]
        rfl
      obtain ⟨⟨hfiles, hcwd, hidx⟩, hchildless, -⟩ := hleaving.dying proc path status [] htask
      cases hnext
      cases path with
      | killed =>
        have hstays := hadmitted proc hplace
        rw [htask] at hstays
        cases hstays
      | manager =>
        refine hleaving.work rfl (fun other hne => Or.inl ⟨calm_of_ne hne, rfl, rfl, rfl⟩)
          (fun _ _ hnone => hnone) (fun other path status visits hne hdying =>
            absurd hdying (not_dying hordered (Or.inr hholds) hne))
          (unborn hordered hplace) (by simp) (by simp)
          (fun _ => ⟨rfl, ⟨hfiles, hcwd, hidx⟩, hchildless⟩) ?_ (by simp)
        simp [Scheduler.finish]
  · cases hstep

theorem Leaving.working (hleaving : Leaving machine)
    (hordered : Ordered machine) {move : Move procs} (hadmitted : Admitted machine (hart, move))
    (hplace : machine.places hart = .running proc)
    (hstep : working machine hart proc move = some next) : Leaving next := by
  cases move with
  | alloc => exact hleaving.alloc hordered hplace hstep
  | publish => exact hleaving.publish hordered hplace hstep
  | reap => exact hleaving.reap hordered hplace hstep
  | link => exact hleaving.link hordered hplace hstep
  | nap => exact hleaving.nap hordered hplace hstep
  | exit => exact hleaving.exit hordered hplace hstep
  | reparent => exact hleaving.reparent hordered hplace hstep
  | visit => exact hleaving.visit hordered hplace hstep
  | finish => exact hleaving.finish hordered hadmitted hplace hstep
  | sleep n =>
    have hblock : Passes machine (machine.block hart proc (.other n)) :=
      passes_of_slot rfl ⟨by simp, by simp, by simp⟩ rfl rfl rfl rfl rfl rfl
    simp only [Scheduler.working] at hstep
    split at hstep
    · obtain ⟨-, ⟨⟩⟩ := Option.ite_none_right_eq_some.mp hstep
      exact hleaving.passes hblock
    · obtain ⟨-, ⟨⟩⟩ := Option.ite_none_right_eq_some.mp hstep
      exact hleaving.passes hblock
    · cases hstep
  | kill =>
    obtain ⟨-, ⟨⟩⟩ := Option.ite_none_right_eq_some.mp hstep
    exact hleaving.passes (passes_of_slot rfl (calm_wakeUp _ _) rfl rfl rfl rfl rfl rfl)
  | openFile | chdir =>
    obtain ⟨htask, ⟨⟩⟩ := Option.ite_none_right_eq_some.mp hstep
    refine hleaving.turn hordered hplace (update_eq_self _ _).symm rfl rfl
      rfl (fun _ => Or.inl (Calm.refl _)) (fun other hne => Or.inl ?_)
      (by rw [htask]; simp) (by rw [htask]; simp)
    simp [hne, Calm.refl]
  | wait | find | giveUp =>
    obtain ⟨-, ⟨⟩⟩ := Option.ite_none_right_eq_some.mp hstep
    exact hleaving.turn hordered hplace rfl rfl rfl rfl (fun _ => Or.inl (Calm.refl _))
      (fun other _ => Or.inl ⟨Calm.refl _, rfl, rfl, rfl⟩) ⟨by simp, by simp⟩ (by simp)
  | _ => cases hstep

theorem Leaving.step (hleaving : Leaving machine) (hordered : Ordered machine)
    {action : Fin harts × Move procs} (hadmitted : Admitted machine action)
    (hstep : step machine action = some next) : Leaving next := by
  obtain ⟨hart, move⟩ := action
  unfold Scheduler.step at hstep
  split at hstep
  · split at hstep
    all_goals first
      | exact hleaving.passes (passes_wakeTarget hstep)
      | cases hstep
  · next heq =>
      cases heq
      split at hstep
      · next hswitch =>
          cases hstep
          exact hleaving.passes (passes_switching hswitch)
      · split at hstep
        · next hplace => exact hleaving.working hordered hadmitted hplace hstep
        · cases hstep

end Steps

/-! ## Runs -/

/-- Nothing is left of the process but its slot. -/
structure Retired (machine : Machine procs harts) (proc : Fin procs) :
    Prop where
  emptied : Emptied machine .manager proc
  childless : Childless machine proc
  unnamed : ∀ hart, machine.process hart ≠ some proc
  left : ∀ hart, machine.onStack hart ≠ some proc

/-- Whoever can be seen to be a zombie is retired. -/
def Buried (machine : Machine procs harts) : Prop :=
  ∀ proc, (machine.slots proc).state = .zombie →
    (machine.slots proc).lock = none → Retired machine proc

/-- What the end of `exit` does. -/
structure Departed (next : Machine procs harts) (hart : Fin harts)
    (proc : Fin procs) (status : ℕ) : Prop where
  zombie : (next.slots proc).state = .zombie
  status : next.xstate proc = status
  parent : ∀ parent target, next.waitList proc = some parent →
    (next.slots target).state = .sleeping → (next.slots target).chan ≠ some (.addr parent)
  switch : next.places hart = .parting proc .ended
  context : next.frame hart = some (proc, none)

/-- On either path the end of `exit` is that of `ProcManager::exit`. -/
def Departs (machine : Machine procs harts) (action : Fin harts × Move procs)
    (next : Machine procs harts) : Prop :=
  match action with
  | (hart, .finish) => ∀ proc path status, machine.places hart = .running proc →
      machine.tasks proc = .dying path status [] → Departed next hart proc status
  | _ => True

section Runs

variable {machine next last : Machine procs harts}
variable {hart : Fin harts} {proc : Fin procs}

theorem buried (hordered : Ordered machine) (hleaving : Leaving machine) : Buried machine := by
  intro proc hzombie hlock
  have hfree := hordered.free_of_lock hlock (by rw [hzombie]; exact ⟨nofun, nofun⟩)
  obtain ⟨hemptied, hchildless⟩ := hleaving.zombie proc hzombie
  exact ⟨hemptied, hchildless, fun hart hprocess => hfree hart (hordered.has_of_process hprocess),
    fun hart hstack => hfree hart (hordered.has_of_onStack hstack)⟩

theorem step_finish (hplace : machine.places hart = .running proc) :
    step machine (hart, .finish) = working machine hart proc .finish := by
  simp only [step, switching, hplace]

/-- At the end of `process::exit` the CPU still has the process as its own. -/
theorem admitted_of_buried (hordered : Ordered machine) {action : Fin harts × Move procs}
    (hstep : step machine action = some next) (hburied : Buried next) :
    Admitted machine action := by
  obtain ⟨hart, move⟩ := action
  cases move with
  | finish =>
    intro proc hplace
    by_contra hjumps
    rw [step_finish hplace] at hstep
    have hnamed := hordered.named hart
    rw [hplace] at hnamed
    simp only [working] at hstep
    split at hstep
    · next path status htask =>
        obtain ⟨hlock, ⟨⟩⟩ := Option.ite_none_right_eq_some.mp hstep
        cases path with
        | manager =>
          rw [htask] at hjumps
          exact hjumps rfl
        | killed =>
          refine (hburied proc ?_ ?_).unnamed hart hnamed
          · simp [finish]
          · simp [finish, hlock]
    · cases hstep
  | _ => trivial

theorem departs (hordered : Ordered machine) (hleaving : Leaving machine)
    {action : Fin harts × Move procs} (hadmitted : Admitted machine action)
    (hstep : step machine action = some next) : Departs machine action next := by
  obtain ⟨hart, move⟩ := action
  cases move with
  | finish =>
    intro proc path status hplace htask
    rw [step_finish hplace] at hstep
    have hframed := hordered.framed hart
    rw [hplace] at hframed
    have hcalled := (hleaving.dying proc path status [] htask).2.2
    simp only [working, htask] at hstep
    obtain ⟨-, ⟨⟩⟩ := Option.ite_none_right_eq_some.mp hstep
    cases path with
    | killed =>
      have hstays := hadmitted proc hplace
      rw [htask] at hstays
      cases hstays
    | manager =>
      refine ⟨by simp [finish], update_self .., ?_, update_self .., hframed⟩
      intro parent target hparent hsleeping hchan
      by_cases htarget : target = proc
      · simp [finish, htarget] at hsleeping
      · simp only [finish, update_of_ne htarget] at hsleeping hchan
        exact List.not_mem_nil (hcalled parent target hparent hsleeping hchan)
  | _ => trivial

/-- On either path a process leaves as by `ProcManager::exit`, in every state of
a run, exactly if nobody comes to the end of `process::exit`. -/
theorem run_buried_iff {initProc : Fin procs}
    {record : List (Machine procs harts × Fin harts × Move procs)}
    (hrun : Run step (boot initProc) record last) :
    (Buried last ∧ ∀ entry ∈ record, Buried entry.1 ∧ ∀ next, step entry.1 entry.2 = some next →
        Departs entry.1 entry.2 next) ↔ ∀ entry ∈ record, Admitted entry.1 entry.2 := by
  have hkeep : ∀ (machine : Machine procs harts) (action : Fin harts × Move procs) next,
      Ordered machine ∧ Leaving machine → Admitted machine action →
      step machine action = some next → Ordered next ∧ Leaving next :=
    fun _ _ _ hboth hadmitted hstep =>
      ⟨hboth.1.step hadmitted hstep, hboth.2.step hboth.1 hadmitted hstep⟩
  have hfirst : Ordered (boot initProc : Machine procs harts) ∧
      Leaving (boot initProc : Machine procs harts) :=
    ⟨ordered_boot initProc, leaving_boot initProc⟩
  have hiff := hrun.holds_iff hkeep (fun machine action next hboth _ hstep =>
    ⟨admitted_of_buried hboth.1 hstep, fun hadmitted =>
      buried (hkeep machine action next hboth hadmitted hstep).1
        (hkeep machine action next hboth hadmitted hstep).2⟩) hfirst (buried hfirst.1 hfirst.2)
  constructor
  · rintro ⟨hlast, hstates⟩
    exact hiff.mp ⟨hlast, fun entry hentry => (hstates entry hentry).1⟩
  · intro hadmitted
    obtain ⟨hlast, hstates⟩ := hiff.mpr hadmitted
    obtain ⟨-, hinvariant⟩ := hrun.invariant hkeep hfirst hadmitted
    refine ⟨hlast, fun entry hentry => ⟨hstates entry hentry, ?_⟩⟩
    intro next hstep
    exact departs (hinvariant entry hentry).1 (hinvariant entry hentry).2
      (hadmitted entry hentry) hstep

end Runs

/-- A process is forked, has a file open and leaves by `ProcManager::exit`. -/
def orderlyExit : List (Fin 2 × Move 2) :=
  turns 0 [.scan, .setProc, .acquire, .enter, .release, .alloc 1, .publish, .link] ++
  turns 1 [.scan, .scan, .setProc, .acquire, .enter, .release] ++
  turns 0 [.wait, .nap, .part, .clear, .drop] ++
  turns 1 [.openFile 0 (some 7), .exit .manager 3, .reparent, .visit, .visit,
    .finish, .part, .clear, .drop]

theorem run_buried_iff_orderly : ∃ record last,
    Run step (boot 0) record last ∧ record.map Prod.snd = orderlyExit ∧
      (Buried last ∧ ∀ entry ∈ record, Buried entry.1 ∧ ∀ next, step entry.1 entry.2 = some next →
          Departs entry.1 entry.2 next) ∧
      (last.slots 1).state = .zombie ∧ (last.slots 1).lock = none ∧
      (last.slots 0).state = .runnable := by
  have hsome : ((orderlyExit.foldlM (guarded Admitted step) (boot 0)).any fun last =>
      (last.slots 1).state = .zombie ∧ (last.slots 1).lock = none ∧
        (last.slots 0).state = .runnable) = true := by decide +kernel
  obtain ⟨record, last, hrun, hactions, hadmitted, hend⟩ := Run.of_any_admitted hsome
  exact ⟨record, last, hrun, hactions, (run_buried_iff hrun).mpr hadmitted, hend⟩

/-- A process that its own fault has killed leaves by `process::exit`. -/
def killedExit : List (Fin 2 × Move 2) :=
  turns 0 [.scan, .setProc, .acquire, .enter, .release, .alloc 1, .publish, .link] ++
  turns 1 [.scan, .scan, .setProc, .acquire, .enter, .release, .kill 1,
    .exit .killed 3, .reparent, .visit, .visit, .finish]

/-- The CPU still names the process and is on its stack, and the process still
has its entry in `idx_pids`. -/
theorem not_run_buried : ¬∀ (procs harts : ℕ) (initProc : Fin procs)
    (record : List (Machine procs harts × Fin harts × Move procs))
    (last : Machine procs harts), Run step (boot initProc) record last →
    Buried last ∧ ∀ entry ∈ record, Buried entry.1 ∧ ∀ next, step entry.1 entry.2 = some next →
        Departs entry.1 entry.2 next := by
  intro hall
  have hsome : ((killedExit.foldlM step (boot 0)).any fun last =>
      (last.slots 1).state = .zombie ∧ (last.slots 1).lock = none ∧
        last.process 1 = some 1 ∧ last.onStack 1 = some 1 ∧ last.idxPids 1 = some 1) = true := by
    decide +kernel
  obtain ⟨record, last, hrun, -, hzombie, hlock, hprocess, -⟩ := Run.of_any hsome
  exact ((hall 2 2 0 record last hrun).1 1 hzombie hlock).unnamed 1 hprocess

end RxOs.ExitPaths
