import RxOs.Core.Transition
import RxOs.Fs.Kernel

/-!
# Parents and children

`fork`, `exit` and `wait` on the process table.  `wait_list` holds, for each
slot, the address of the parent of the process in it; it is written by `fork`
after the child has become runnable, by `exit` for the children of the exiting
process, and it is not cleared when `wait` frees a slot.  Next to it the model
keeps who the parent of the process in a slot really is.
-/

namespace RxOs.WaitList

open Function Params Transition
open Kernel (Proc)

inductive ProcState
  | unused
  | used
  | sleeping
  | runnable
  | running
  | zombie
  | allocated
  deriving DecidableEq

/-- The channels that matter here: the address of a process, which `wait` sleeps
on, and all others. -/
inductive Channel
  | none
  | proc (address : Proc)
  | other
  deriving DecidableEq

structure ProcMeta where
  state : ProcState
  chan : Channel
  killed : Bool
  xstate : ℕ
  pid : ℕ
  deriving DecidableEq

/-- `ProcMeta::new`, and what `free_proc` leaves behind. -/
def ProcMeta.new : ProcMeta := ⟨.unused, .none, false, 0, 0⟩

inductive Doing
  | nothing
  | forking (child : Proc)
  | linking (child : Proc)
  | waiting
  deriving DecidableEq

/-- The process table.  `parent` is who forked, or by reparenting adopted, the
process in a slot and has not reaped it. -/
structure Table where
  metas : Proc → ProcMeta
  waitList : Proc → Option Proc
  initProc : Proc
  pids : ℕ
  doing : Proc → Doing
  parent : Proc → Option Proc

inductive Action
  | schedule (proc : Proc)
  | yielding (proc : Proc)
  | block (proc : Proc)
  | wake (proc : Proc)
  | kill (pid : ℕ)
  | forkAlloc (proc child : Proc)
  | forkFull (proc : Proc)
  | forkRun (proc : Proc)
  | forkLink (proc : Proc)
  | exit (proc : Proc) (status : ℕ)
  | wait (proc : Proc)
  | scan (proc : Proc)
  deriving DecidableEq

/-- How one pass of the loop in `wait` ends. -/
inductive Scan
  | reaps (child : Proc)
  | returnsNone
  | sleeps
  deriving DecidableEq

namespace Table

/-- The table once `user_init` has made the first process. -/
def boot : Table where
  metas := update (fun _ => ProcMeta.new) 0 { ProcMeta.new with state := .runnable }
  waitList := fun _ => none
  initProc := 0
  pids := 1
  doing := fun _ => .nothing
  parent := fun _ => none

def setState (table : Table) (proc : Proc) (state : ProcState) : Table :=
  { table with
    metas := update table.metas proc { table.metas proc with state := state } }

def setDoing (table : Table) (proc : Proc) (doing : Doing) : Table :=
  { table with doing := update table.doing proc doing }

/-- `ProcManager::wake_up`, called by `caller`. -/
def wakeUp (table : Table) (caller : Proc) (channel : Channel) : Table :=
  { table with
    metas := fun proc =>
      let pmeta := table.metas proc
      if proc ≠ caller ∧ pmeta.state = .sleeping ∧ pmeta.chan = channel then
        { pmeta with state := .runnable }
      else pmeta }

def channelOf : Option Proc → Channel
  | some address => .proc address
  | none => .none

/-- `ProcManager::reparent`, for the wait list and for the parents. -/
def reparent (table : Table) (proc : Proc) : Table :=
  let adopt := fun entry : Option Proc =>
    if entry = some proc then some table.initProc else entry
  let table' :=
    { table with
      waitList := fun slot => adopt (table.waitList slot)
      parent := fun slot => adopt (table.parent slot) }
  if ∃ slot, table.waitList slot = some proc then
    table'.wakeUp proc (.proc table.initProc)
  else table'

/-- `ProcManager::exit`, in one hold of the `wait_list` lock. -/
def exit (table : Table) (proc : Proc) (status : ℕ) : Table :=
  let table := table.reparent proc
  let table := table.wakeUp proc (channelOf (table.waitList proc))
  { table with
    metas := update table.metas proc { table.metas proc with xstate := status, state := .zombie } }

/-- The wake-ups leave out the exiting process. -/
theorem metas_exit (table : Table) (proc : Proc) (status : ℕ) : (table.exit proc status).metas proc =
    { table.metas proc with xstate := status, state := .zombie } := by
  have hparted : (table.reparent proc).metas proc = table.metas proc := by
    unfold reparent
    dsimp only
    split
    · exact if_neg fun hother => hother.1 rfl
    · rfl
  have hwoken : ((table.reparent proc).wakeUp proc
      (channelOf ((table.reparent proc).waitList proc))).metas proc = table.metas proc :=
    (if_neg fun hother => hother.1 rfl).trans hparted
  exact (update_self _ _ _).trans (by rw [hwoken])

/-- One pass of the loop in `ProcManager::wait`. -/
def scan (table : Table) (proc : Proc) : Scan :=
  match (List.finRange nproc).find? fun child => table.waitList child = some proc ∧
        (table.metas child).state = .zombie with
  | some child => .reaps child
  | none =>
    if (∀ child, table.waitList child ≠ some proc) ∨
        (table.metas proc).killed = true then .returnsNone
    else .sleeps

/-- `Process::free_proc`: the entry in the wait list is left as it is. -/
def freeProc (table : Table) (child : Proc) : Table :=
  { table with
    metas := update table.metas child ProcMeta.new
    parent := update table.parent child none }

/-- The loop of `ProcManager::kill` over the remaining slots. -/
def kill (pid : ℕ) : List Proc → (Proc → ProcMeta) → Proc → ProcMeta
  | [], metas => metas
  | proc :: rest, metas =>
    if (metas proc).pid = pid then
      if (metas proc).state = .sleeping then
        update metas proc { metas proc with killed := true, state := .runnable }
      else
        kill pid rest (update metas proc { metas proc with killed := true })
    else kill pid rest metas

/-- One step; a process makes its own steps only while it is running. -/
def step (table : Table) : Action → Option Table
  | .schedule proc =>
    if (table.metas proc).state = .runnable then
      some { table with
        metas := update table.metas proc
          { table.metas proc with chan := .none, state := .running } }
    else none
  | .yielding proc =>
    if (table.metas proc).state = .running then
      some (table.setState proc .runnable)
    else none
  | .block proc =>
    if (table.metas proc).state = .running then
      some { table with
        metas := update table.metas proc
          { table.metas proc with chan := .other, state := .sleeping } }
    else none
  | .wake proc =>
    if (table.metas proc).state = .sleeping ∧ (table.metas proc).chan = .other then
      some (table.setState proc .runnable)
    else none
  | .kill pid => some { table with metas := kill pid (List.finRange nproc) table.metas }
  | .forkAlloc proc child =>
    if (table.metas proc).state = .running ∧ table.doing proc = .nothing ∧
        (table.metas child).state = .unused then
      some { table with
        metas := update table.metas child
          { table.metas child with pid := table.pids, state := .allocated }
        pids := table.pids + 1
        doing := update table.doing proc (.forking child)
        parent := update table.parent child (some proc) }
    else none
  | .forkFull proc =>
    if (table.metas proc).state = .running ∧ table.doing proc = .nothing ∧
        ∀ child, (table.metas child).state ≠ .unused then
      some { table with pids := table.pids + 1 }
    else none
  | .forkRun proc =>
    match table.doing proc with
    | .forking child =>
      if (table.metas proc).state = .running then
        some ((table.setState child .runnable).setDoing proc (.linking child))
      else none
    | _ => none
  | .forkLink proc =>
    match table.doing proc with
    | .linking child =>
      if (table.metas proc).state = .running then
        some ({ table with
          waitList := update table.waitList child (some proc) }.setDoing proc .nothing)
      else none
    | _ => none
  | .exit proc status =>
    if (table.metas proc).state = .running ∧ table.doing proc = .nothing then
      some (table.exit proc status)
    else none
  | .wait proc =>
    if (table.metas proc).state = .running ∧ table.doing proc = .nothing then
      some (table.setDoing proc .waiting)
    else none
  | .scan proc =>
    if (table.metas proc).state = .running ∧ table.doing proc = .waiting then
      match table.scan proc with
      | .reaps child => some ((table.freeProc child).setDoing proc .nothing)
      | .returnsNone => some (table.setDoing proc .nothing)
      | .sleeps =>
        some { table with
          metas := update table.metas proc
            { table.metas proc with
              chan := .proc proc
              state := .sleeping } }
    else none

/-- The process in the slot is an unreaped child of `proc`. -/
def IsChild (table : Table) (proc child : Proc) : Prop :=
  table.parent child = some proc ∧ (table.metas child).state ≠ .unused

theorem scan_eq_reaps {table : Table} {proc child : Proc} (hscan : table.scan proc = .reaps child) :
    table.waitList child = some proc := by
  unfold scan at hscan
  split at hscan
  · next found hfind =>
      obtain rfl : found = child := by simpa using hscan
      have hfound := List.find?_some hfind
      simp only [decide_eq_true_eq] at hfound
      exact hfound.1
  · split at hscan <;> cases hscan

theorem scan_eq_returnsNone {table : Table} {proc : Proc}
    (hnone : ∀ child, table.waitList child ≠ some proc) : table.scan proc = .returnsNone := by
  cases hscan : table.scan proc with
  | reaps child => exact absurd (scan_eq_reaps hscan) (hnone child)
  | returnsNone => rfl
  | sleeps =>
    unfold scan at hscan
    split at hscan
    · cases hscan
    · rw [if_pos (.inl hnone)] at hscan
      cases hscan

/-- `kill` neither makes a slot unused nor takes an unused one into use. -/
theorem kill_unused_iff (pid : ℕ) (slots : List Proc) (metas : Proc → ProcMeta) (slot : Proc) :
    (kill pid slots metas slot).state = .unused ↔ (metas slot).state = .unused := by
  fun_induction kill pid slots metas with
  | case1 => rfl
  | case2 proc rest metas hpid hsleeping =>
    by_cases hslot : slot = proc
    · simp [hslot, hsleeping]
    · simp [hslot]
  | case3 proc rest metas hpid hawake ih =>
    rw [ih]
    by_cases hslot : slot = proc
    · simp [hslot]
    · simp [hslot]
  | case4 proc rest metas hpid ih => exact ih

end Table

/-! ## The wait list against the parents -/

/-- The entries of the wait list name the parents of unreaped processes;
therefore `wait` reaps children of the caller only, and returns `None` to a
caller without children. -/
structure Sound (table : Table) : Prop where
  entry : ∀ child proc, table.waitList child = some proc → table.IsChild proc child
  reaps : ∀ proc child, table.scan proc = .reaps child → table.IsChild proc child
  childless : ∀ proc, (∀ child, ¬table.IsChild proc child) → table.scan proc = .returnsNone

theorem sound_iff {table : Table} :
    Sound table ↔ ∀ child proc, table.waitList child = some proc → table.IsChild proc child := by
  refine ⟨Sound.entry, fun hentry => ⟨hentry, ?_, ?_⟩⟩
  · intro proc child hscan
    exact hentry child proc (Table.scan_eq_reaps hscan)
  · intro proc hnone
    apply Table.scan_eq_returnsNone
    intro child hlist
    exact hnone child (hentry child proc hlist)

/-- A pass of `wait` that finds an exited process and frees its slot. -/
def Reaps (table : Table) : Action → Prop
  | .scan proc => ∃ child, table.scan proc = .reaps child
  | _ => False

instance (table : Table) (action : Action) : Decidable (Reaps table action) := by
  unfold Reaps
  split <;> infer_instance

/-- As long as no slot is freed: unused slots have neither an entry nor a
parent, and the two agree wherever an entry exists. -/
structure Linked (table : Table) : Prop where
  vacant : ∀ slot, (table.metas slot).state = .unused →
    table.waitList slot = none ∧ table.parent slot = none
  entry : ∀ slot proc, table.waitList slot = some proc → table.parent slot = some proc
  forking : ∀ proc child, table.doing proc = .forking child ∨
    table.doing proc = .linking child → table.parent child = some proc

theorem linked_boot : Linked Table.boot where
  vacant := fun _ _ => ⟨rfl, rfl⟩
  entry := nofun
  forking := by simp [Table.boot]

namespace Linked

variable {table next : Table} {proc child : Proc}

theorem sound (hlinked : Linked table) : Sound table := by
  rw [sound_iff]
  intro child proc hlist
  have hparent := hlinked.entry child proc hlist
  refine ⟨hparent, ?_⟩
  intro hunused
  rw [(hlinked.vacant child hunused).2] at hparent
  cases hparent

/-- Only the states change, and no slot becomes unused. -/
theorem of_metas (hlinked : Linked table) {metas : Proc → ProcMeta}
    (hmetas : ∀ slot, (metas slot).state = .unused → (table.metas slot).state = .unused) :
    Linked { table with metas := metas } where
  vacant := fun slot hunused => hlinked.vacant slot (hmetas slot hunused)
  entry := hlinked.entry
  forking := hlinked.forking

theorem of_update (hlinked : Linked table) {pmeta : ProcMeta} (hstate : pmeta.state ≠ .unused) :
    Linked { table with metas := update table.metas proc pmeta } := by
  apply hlinked.of_metas
  intro slot hunused
  by_cases hslot : slot = proc
  · rw [hslot, update_self] at hunused
    exact absurd hunused hstate
  · rwa [update_of_ne hslot] at hunused

/-- A process leaves the code of `fork`, or is not in it. -/
theorem setDoing (hlinked : Linked table) {doing : Doing}
    (hdoing : ∀ child, doing = .forking child ∨ doing = .linking child →
      table.parent child = some proc) :
    Linked (table.setDoing proc doing) where
  vacant := hlinked.vacant
  entry := hlinked.entry
  forking := by
    intro other child hother
    change update table.doing proc doing other = _ ∨
      update table.doing proc doing other = _ at hother
    by_cases hself : other = proc
    · rw [hself, update_self] at hother
      rw [hself]
      exact hdoing child hother
    · rw [update_of_ne hself] at hother
      exact hlinked.forking other child hother

theorem wakeUp (hlinked : Linked table) (caller : Proc) (channel : Channel) :
    Linked (table.wakeUp caller channel) := by
  apply hlinked.of_metas
  intro slot hunused
  dsimp only at hunused
  split at hunused
  · cases hunused
  · exact hunused

theorem kill (hlinked : Linked table) (pid : ℕ) (slots : List Proc) :
    Linked { table with metas := Table.kill pid slots table.metas } := by
  apply hlinked.of_metas
  intro slot hunused
  rwa [Table.kill_unused_iff] at hunused

theorem forkAlloc (hlinked : Linked table) (hunused : (table.metas child).state = .unused)
    {pmeta : ProcMeta} (hstate : pmeta.state ≠ .unused) (pids : ℕ) :
    Linked { table with
      metas := update table.metas child pmeta
      pids := pids
      doing := update table.doing proc (.forking child)
      parent := update table.parent child (some proc) } := by
  obtain ⟨hlist, hparent⟩ := hlinked.vacant child hunused
  refine ⟨?_, ?_, ?_⟩
  · intro slot hslot
    dsimp only at hslot ⊢
    by_cases hself : slot = child
    · rw [hself, update_self] at hslot
      exact absurd hslot hstate
    · rw [update_of_ne hself] at hslot ⊢
      exact hlinked.vacant slot hslot
  · intro slot parent hslot
    dsimp only at hslot ⊢
    by_cases hself : slot = child
    · rw [hself, hlist] at hslot
      cases hslot
    · rw [update_of_ne hself]
      exact hlinked.entry slot parent hslot
  · intro other found hother
    dsimp only at hother ⊢
    by_cases hself : other = proc
    · rw [hself, update_self] at hother
      obtain rfl : child = found := by simpa using hother
      rw [hself, update_self]
    · rw [update_of_ne hself] at hother
      have hfound := hlinked.forking other found hother
      have hne : found ≠ child := by
        rintro rfl
        rw [hparent] at hfound
        cases hfound
      rw [update_of_ne hne, hfound]

theorem forkLink (hlinked : Linked table) (hparent : table.parent child = some proc) :
    Linked { table with
      waitList := update table.waitList child (some proc) } := by
  refine ⟨?_, ?_, hlinked.forking⟩
  · intro slot hunused
    have hvacant := hlinked.vacant slot hunused
    have hne : slot ≠ child := by
      rintro rfl
      rw [hparent] at hvacant
      cases hvacant.2
    dsimp only
    rwa [update_of_ne hne]
  · intro slot parent hslot
    dsimp only at hslot ⊢
    by_cases hself : slot = child
    · rw [hself, update_self] at hslot
      rw [hself, hparent, hslot]
    · rw [update_of_ne hself] at hslot
      exact hlinked.entry slot parent hslot

theorem reparent (hlinked : Linked table) (hdoing : table.doing proc = .nothing) :
    Linked (table.reparent proc) := by
  have hadopted : Linked { table with
      waitList := fun slot => if table.waitList slot = some proc then
        some table.initProc else table.waitList slot
      parent := fun slot => if table.parent slot = some proc then
        some table.initProc else table.parent slot } := by
    refine ⟨?_, ?_, ?_⟩
    · intro slot hunused
      obtain ⟨hlist, hparent⟩ := hlinked.vacant slot hunused
      simp [hlist, hparent]
    · intro slot parent hslot
      dsimp only at hslot ⊢
      split at hslot
      · next hself => rw [if_pos (hlinked.entry slot proc hself), hslot]
      · next hother =>
          have hparent := hlinked.entry slot parent hslot
          rw [hparent, if_neg]
          rintro hself
          rw [hslot, hself] at hother
          exact hother rfl
    · intro other child hother
      dsimp only at hother ⊢
      have hchild := hlinked.forking other child hother
      rw [if_neg, hchild]
      intro hself
      obtain rfl : other = proc := by
        rw [hchild] at hself
        simpa using hself
      rw [hdoing] at hother
      simp at hother
  unfold Table.reparent
  split
  · exact hadopted.wakeUp _ _
  · exact hadopted

theorem exit (hlinked : Linked table) (hdoing : table.doing proc = .nothing)
    (status : ℕ) : Linked (table.exit proc status) :=
  ((hlinked.reparent hdoing).wakeUp _ _).of_update (by simp)

end Linked

theorem linked_step (table : Table) (action : Action) (next : Table)
    (hlinked : Linked table) (hreaps : ¬Reaps table action)
    (hstep : table.step action = some next) : Linked next := by
  cases action with
  | kill pid =>
    cases hstep
    exact hlinked.kill pid _
  | forkAlloc proc child =>
    obtain ⟨⟨-, -, hunused⟩, rfl⟩ := by simpa [Table.step] using hstep
    exact hlinked.forkAlloc hunused (by simp) _
  | forkFull proc =>
    obtain ⟨-, rfl⟩ := by simpa [Table.step] using hstep
    exact ⟨hlinked.vacant, hlinked.entry, hlinked.forking⟩
  | forkRun proc =>
    simp only [Table.step] at hstep
    split at hstep
    · next child hdoing =>
        split at hstep
        · cases hstep
          refine (hlinked.of_update (by simp)).setDoing ?_
          intro found hfound
          obtain rfl : child = found := by simpa using hfound
          exact hlinked.forking proc child (.inl hdoing)
        · cases hstep
    · cases hstep
  | forkLink proc =>
    simp only [Table.step] at hstep
    split at hstep
    · next child hdoing =>
        split at hstep
        · cases hstep
          refine (hlinked.forkLink ?_).setDoing (by simp)
          exact hlinked.forking proc child (.inr hdoing)
        · cases hstep
    · cases hstep
  | exit proc status =>
    obtain ⟨⟨-, hdoing⟩, rfl⟩ := by simpa [Table.step] using hstep
    exact hlinked.exit hdoing status
  | wait proc =>
    obtain ⟨-, rfl⟩ := by simpa [Table.step] using hstep
    exact hlinked.setDoing (by simp)
  | scan proc =>
    simp only [Table.step] at hstep
    split at hstep
    · split at hstep
      · next child hscan => exact absurd ⟨child, hscan⟩ hreaps
      · cases hstep
        exact hlinked.setDoing (by simp)
      · cases hstep
        exact hlinked.of_update (by simp)
    · cases hstep
  | _ =>
    obtain ⟨-, rfl⟩ := by simpa [Table.step] using hstep
    exact hlinked.of_update (by simp)

/-- The entry of a slot survives the process in it. -/
theorem not_sound_of_reaps {table next : Table} {action : Action}
    (hreaps : Reaps table action) (hstep : table.step action = some next) : ¬Sound next := by
  intro hsound
  cases action with
  | scan proc =>
    obtain ⟨child, hscan⟩ := hreaps
    simp only [Table.step, hscan] at hstep
    split at hstep
    · cases hstep
      have hlist := Table.scan_eq_reaps hscan
      have hchild := hsound.entry child proc hlist
      apply hchild.2
      simp [Table.setDoing, Table.freeProc, ProcMeta.new]
    · cases hstep
  | _ => exact hreaps

/-- In a run from boot the wait list names parents of unreaped children in every
state exactly if no `wait` of the run reaps a child. -/
theorem run_sound_iff {last : Table} {record : List (Table × Action)}
    (hrun : Run Table.step Table.boot record last) :
    (Sound last ∧ ∀ entry ∈ record, Sound entry.1) ↔ ∀ entry ∈ record, ¬Reaps entry.1 entry.2 := by
  refine hrun.holds_iff linked_step ?_ linked_boot linked_boot.sound
  intro table action next hlinked _ hstep
  constructor
  · intro hsound hreaps
    exact not_sound_of_reaps hreaps hstep hsound
  · intro hreaps
    exact (linked_step table action next hlinked hreaps hstep).sound

/-! ## A child that was reaped -/

/-- The first process forks, and the child exits. -/
def forkExit : List Action :=
  [.schedule 0, .forkAlloc 0 1, .forkRun 0, .forkLink 0, .schedule 1, .exit 1 7]

/-- After it has reaped its only child, a process that calls `wait` again goes
to sleep. -/
theorem exists_run_not_sound :
    ¬∀ (record : List (Table × Action)) (last : Table),
      Run Table.step Table.boot record last → Sound last := by
  intro hsound
  have hfold : ((forkExit ++ [Action.wait 0, .scan 0, .wait 0]).foldlM
      Table.step Table.boot).any (fun table =>
        table.scan 0 = .sleeps ∧ ∀ child, table.parent child ≠ some 0) = true := by decide +kernel
  obtain ⟨record, last, hrun, -, hscan, hparent⟩ := Run.of_any hfold
  have hnone := (hsound record last hrun).childless 0 fun child hchild => hparent child hchild.1
  rw [hscan] at hnone
  cases hnone

/-- Up to the exit of the child all is well. -/
theorem run_sound_forkExit : ∃ record last, Run Table.step Table.boot record last ∧
      record.map Prod.snd = forkExit ∧ Sound last := by
  have hfold : (forkExit.foldlM (guarded (fun table action => ¬Reaps table action) Table.step)
      Table.boot).isSome = true := by decide +kernel
  obtain ⟨last, hlast⟩ := Option.isSome_iff_exists.mp hfold
  obtain ⟨record, hrun, hactions, hadmitted⟩ := Run.of_foldlM_admitted hlast
  exact ⟨record, last, hrun, hactions, ((run_sound_iff hrun).mpr hadmitted).1⟩

end RxOs.WaitList
