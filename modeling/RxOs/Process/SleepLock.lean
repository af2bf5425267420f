import RxOs.Core.Transition
import RxOs.Core.WaitChannel

/-!
# Sleep locks

`SleepMutex` under any number of processes.  A thread is at one place of
`lock`, of the drop of a guard, or outside of both; the inner spin lock, the
locks of the processes and the loop of `wake_up` are taken step by step.
-/

namespace RxOs.SleepLock

open Function Transition WaitChannel

inductive Thread (count : ℕ)
  /-- In neither of the two functions. -/
  | outside
  /-- `lock`, about to take the inner spin lock. -/
  | entering
  /-- `lock`, about to test `*guard`. -/
  | testing
  /-- `sleep`, with the lock of the process taken. -/
  | dozing
  /-- `sleep`, after the inner spin lock was dropped. -/
  | falling
  /-- `sleep`, in the state `Sleeping`. -/
  | asleep
  /-- `lock`, with `*guard` set. -/
  | leaving
  /-- `unlock`, about to take the inner spin lock. -/
  | dropping
  /-- `unlock`, about to clear `*guard`. -/
  | clearing
  /-- `unlock`, in the loop of `wake_up`. -/
  | waking (rest : List (Fin count))
  deriving DecidableEq

/-- A sleep lock and the processes that use it.  `loose` guards exist and are
not being dropped. -/
structure Machine (count : ℕ) where
  locked : Bool
  inner : Option (Fin count)
  loose : ℕ
  threads : Fin count → Thread count

/-- Calls of `lock`, drops of guards, `kill`, and the next step of a call. -/
inductive Action (count : ℕ)
  | lock (proc : Fin count)
  | drop (proc : Fin count)
  | kill (proc : Fin count)
  | proceed (proc : Fin count)
  deriving DecidableEq

variable {count : ℕ}

/-- A thread and its own lock; there is one channel. -/
def Thread.phase : Thread count → Phase Unit
  | .dozing => .falling ()
  | .falling => .falling ()
  | .asleep => .asleep ()
  | _ => .awake

def Thread.wake (_ : Thread count) : Thread count := .entering

def Machine.moveTo (machine : Machine count) (proc : Fin count)
    (thread : Thread count) : Machine count :=
  { machine with threads := update machine.threads proc thread }

def Machine.acquire (machine : Machine count) (proc : Fin count)
    (thread : Thread count) : Option (Machine count) :=
  if machine.inner = none then
    some ({ machine with inner := some proc }.moveTo proc thread)
  else none

def proceed (machine : Machine count) (proc : Fin count) : Option (Machine count) :=
  match machine.threads proc with
  | .outside => none
  | .entering => machine.acquire proc .testing
  | .testing =>
    if machine.locked then some (machine.moveTo proc .dozing)
    else some ({ machine with locked := true }.moveTo proc .leaving)
  | .dozing => some ({ machine with inner := none }.moveTo proc .falling)
  | .falling => some (machine.moveTo proc .asleep)
  | .asleep => none
  | .leaving =>
    some ({ machine with inner := none, loose := machine.loose + 1 }.moveTo proc .outside)
  | .dropping => machine.acquire proc .clearing
  | .clearing => some ({ machine with locked := false }.moveTo proc (.waking (List.finRange count)))
  | .waking [] => some ({ machine with inner := none }.moveTo proc .outside)
  | .waking (target :: rest) =>
    if target = proc then some (machine.moveTo proc (.waking rest))
    else
      (visit Thread.phase Thread.wake () target machine.threads).map fun threads =>
          { machine with threads := threads }.moveTo proc (.waking rest)

def step (machine : Machine count) : Action count → Option (Machine count)
  | .lock proc =>
    if machine.threads proc = .outside then
      some (machine.moveTo proc .entering)
    else none
  | .drop proc =>
    if machine.threads proc = .outside ∧ 0 < machine.loose then
      some ({ machine with loose := machine.loose - 1 }.moveTo proc .dropping)
    else none
  | .kill proc =>
    (visit Thread.phase Thread.wake () proc machine.threads).map
      fun threads => { machine with threads := threads }
  | .proceed proc => proceed machine proc

def boot (count : ℕ) : Machine count where
  locked := false
  inner := none
  loose := 0
  threads := fun _ => .outside

/-! ## The invariant -/

def Inside : Thread count → Prop
  | .testing | .dozing | .leaving | .clearing | .waking _ => True
  | _ => False

/-- The thread has the right to the sleep lock without a loose guard: the guard
is not made yet, or is being dropped. -/
def Token : Thread count → Prop
  | .leaving | .dropping | .clearing => True
  | _ => False

/-- The loops of `wake_up` that have still to come to a process. -/
def Pending (threads : Fin count → Thread count) (_ : Unit) (target : Fin count) : Prop :=
  ∃ proc rest, threads proc = .waking rest ∧ target ∈ rest

/-- There is one right to the sleep lock if it is locked, and none if not. -/
structure Owned (locked : Bool) (loose : ℕ) (holds : Fin count → Prop) :
    Prop where
  token : ∀ proc, holds proc → locked = true ∧ loose = 0 ∧ ∀ other, holds other → other = proc
  loose_eq : (∀ proc, ¬holds proc) → loose = if locked then 1 else 0

/-- Processes sleep only while the sleep lock is locked or they are about to be
visited. -/
structure Invariant (machine : Machine count) : Prop where
  guards : Guards Inside machine.inner machine.threads
  owned : Owned machine.locked machine.loose fun proc => Token (machine.threads proc)
  covered : Covered Thread.phase machine.threads
    (fun _ => machine.locked = true) (Pending machine.threads)

theorem invariant_boot (count : ℕ) : Invariant (boot count) where
  guards := fun _ hinside => hinside.elim
  owned := ⟨fun _ htoken => htoken.elim, fun _ => rfl⟩
  covered := fun _ _ hbound => nomatch hbound

section Owned

variable {locked : Bool} {loose : ℕ} {holds next : Fin count → Prop}
variable {proc : Fin count}

theorem Owned.congr (howned : Owned locked loose holds)
    (hsame : ∀ other, next other ↔ holds other) : Owned locked loose next := by
  obtain rfl : next = holds := funext fun other => propext (hsame other)
  exact howned

/-- The lock is set. -/
theorem Owned.take (howned : Owned false loose holds)
    (hnext : ∀ other, next other ↔ other = proc ∨ holds other) : Owned true loose next := by
  have hnone : ∀ other, ¬holds other :=
    fun other hother => Bool.noConfusion (howned.token other hother).1
  have hloose := howned.loose_eq hnone
  have honly : ∀ other, next other → other = proc :=
    fun other hother => ((hnext other).mp hother).resolve_right (hnone other)
  refine ⟨?_, ?_⟩
  · intro other hother
    refine ⟨rfl, hloose, fun third hthird => ?_⟩
    rw [honly other hother, honly third hthird]
  · intro hempty
    exact absurd ((hnext proc).mpr (Or.inl rfl)) (hempty proc)

theorem Owned.clear (howned : Owned locked loose holds) (hproc : holds proc)
    (hnext : ∀ other, next other ↔ holds other ∧ other ≠ proc) : Owned false loose next := by
  obtain ⟨-, hloose, honly⟩ := howned.token proc hproc
  refine ⟨?_, fun _ => hloose⟩
  intro other hother
  obtain ⟨hholds, hne⟩ := (hnext other).mp hother
  exact absurd (honly other hholds) hne

theorem Owned.make (howned : Owned locked loose holds) (hproc : holds proc)
    (hnext : ∀ other, next other ↔ holds other ∧ other ≠ proc) : Owned locked (loose + 1) next := by
  obtain ⟨hlocked, hloose, honly⟩ := howned.token proc hproc
  refine ⟨?_, ?_⟩
  · intro other hother
    obtain ⟨hholds, hne⟩ := (hnext other).mp hother
    exact absurd (honly other hholds) hne
  · intro _
    rw [hloose, hlocked]
    rfl

/-- A guard begins to be dropped. -/
theorem Owned.drop (howned : Owned locked loose holds) (hloose : 0 < loose)
    (hnext : ∀ other, next other ↔ other = proc ∨ holds other) : Owned locked (loose - 1) next := by
  have hnone : ∀ other, ¬holds other := by
    intro other hother
    have hzero := (howned.token other hother).2.1
    omega
  have hone := howned.loose_eq hnone
  have hlocked : locked = true := by
    by_contra hfalse
    rw [if_neg hfalse] at hone
    omega
  rw [if_pos hlocked] at hone
  have honly : ∀ other, next other → other = proc :=
    fun other hother => ((hnext other).mp hother).resolve_right (hnone other)
  refine ⟨?_, ?_⟩
  · intro other hother
    refine ⟨hlocked, by omega, fun third hthird => ?_⟩
    rw [honly other hother, honly third hthird]
  · intro hempty
    exact absurd ((hnext proc).mpr (Or.inl rfl)) (hempty proc)

end Owned

/-! ## Steps -/

section Steps

variable {machine next : Machine count} {proc target : Fin count}
variable {thread : Thread count} {threads : Fin count → Thread count}

theorem token_gained (hthread : Token thread) (other : Fin count) :
    Token (update threads proc thread other) ↔ other = proc ∨ Token (threads other) := by
  by_cases hother : other = proc
  · rw [hother, update_self]
    exact iff_of_true hthread (Or.inl rfl)
  · rw [update_of_ne hother, or_iff_right hother]

theorem token_lost (hthread : ¬Token thread) (other : Fin count) :
    Token (update threads proc thread other) ↔ Token (threads other) ∧ other ≠ proc := by
  by_cases hother : other = proc
  · rw [hother, update_self]
    exact iff_of_false hthread fun hboth => hboth.2 rfl
  · rw [update_of_ne hother, and_iff_left hother]

theorem token_same (hsame : Token thread ↔ Token (threads proc)) (other : Fin count) :
    Token (update threads proc thread other) ↔ Token (threads other) := by
  by_cases hother : other = proc
  · rw [hother, update_self, hsame]
  · rw [update_of_ne hother]

/-- A loop of `wake_up` that goes on, or another one, still comes to the
target. -/
theorem Pending.update (hpending : Pending threads () target)
    (hkeep : ∀ rest, threads proc = .waking rest → target ∈ rest →
      ∃ rest, thread = .waking rest ∧ target ∈ rest) :
    Pending (update threads proc thread) () target := by
  obtain ⟨waker, rest, hwaking, hmem⟩ := hpending
  by_cases hsame : waker = proc
  · rw [hsame] at hwaking
    obtain ⟨rest', rfl, hmem'⟩ := hkeep rest hwaking hmem
    exact ⟨proc, rest', update_self .., hmem'⟩
  · exact ⟨waker, rest, (update_of_ne hsame ..).trans hwaking, hmem⟩

/-- A thread moves and the lock stays set if it was. -/
theorem covered_update {locked locked' : Bool}
    (hcovered : Covered Thread.phase threads (fun _ => locked = true) (Pending threads))
    (hself : ∀ chan, thread.phase.bound = some chan → locked' = true)
    (hlocked : locked = true → locked' = true)
    (hkeep : ∀ target rest, target ≠ proc → threads proc = .waking rest →
      target ∈ rest → ∃ rest, thread = .waking rest ∧ target ∈ rest) :
    Covered Thread.phase (update threads proc thread)
      (fun _ => locked' = true) (Pending (update threads proc thread)) := by
  refine hcovered.update ?_ ?_
  · intro chan hbound
    exact Or.inl (hself chan hbound)
  · intro other hother chan _ hreason
    exact hreason.imp hlocked fun hpending => hpending.update fun rest => hkeep other rest hother

/-- A visit by the loop of `wake_up`. -/
theorem covered_waking {locked : Bool} {rest : List (Fin count)}
    {visited : Fin count → Thread count}
    (hcovered : Covered Thread.phase threads (fun _ => locked = true) (Pending threads))
    (hwaking : threads proc = .waking (target :: rest))
    (hvisit : visit Thread.phase Thread.wake () target threads = some visited) :
    Covered Thread.phase (update visited proc (.waking rest)) (fun _ => locked = true)
      (Pending (update visited proc (.waking rest))) := by
  have hpending : ∀ other channel, Pending threads channel other → (other = target ∧ channel = ()) ∨
        Pending (update visited proc (.waking rest)) channel other := by
    rintro other _ ⟨waker, list, hlist, hmem⟩
    by_cases hsame : waker = proc
    · rw [hsame, hwaking] at hlist
      obtain rfl := (Thread.waking.inj hlist).symm
      rcases List.mem_cons.mp hmem with rfl | hmem
      · exact Or.inl ⟨rfl, rfl⟩
      · exact Or.inr ⟨proc, rest, update_self .., hmem⟩
    · have hawake : (threads waker).phase = .awake := by
        rw [hlist]
        rfl
      refine Or.inr ⟨waker, list, ?_, hmem⟩
      rw [update_of_ne hsame, visit_awake hvisit hawake, hlist]
  have hvisited := hcovered.visit (fun _ => rfl) hvisit hpending
  exact hvisited.update (fun _ hbound => nomatch hbound) fun _ _ _ _ hreason => hreason

theorem eq_asleep {chan : Unit} (hasleep : thread.phase = .asleep chan) : thread = .asleep := by
  cases thread <;> first | rfl | cases hasleep

theorem inside_wake {chan : Unit} (thread : Thread count) (hasleep : thread.phase = .asleep chan) :
    Inside thread.wake → Inside thread := by
  rw [eq_asleep hasleep]
  exact id

theorem token_visit {chan : Unit} {visited : Fin count → Thread count}
    (hvisit : visit Thread.phase Thread.wake chan target threads =
      some visited) (other : Fin count) : Token (visited other) ↔ Token (threads other) := by
  rcases visit_cases hvisit with ⟨rfl, -⟩ | ⟨hasleep, rfl⟩
  · rfl
  · exact token_same (by rw [eq_asleep hasleep]; rfl) other

/-- A thread on its way to sleep keeps its reason. -/
theorem covered_falling {locked : Bool} {place : Thread count}
    (hcovered : Covered Thread.phase threads (fun _ => locked = true)
      (Pending threads)) (hthread : threads proc = thread) (hbound : thread.phase.bound = some ())
    (hquiet : ∀ rest, thread ≠ .waking rest) :
    Covered Thread.phase (update threads proc place) (fun _ => locked = true)
      (Pending (update threads proc place)) := by
  have hkeep : ∀ target, Pending threads () target →
      Pending (update threads proc place) () target := by
    intro target hpending
    refine hpending.update fun rest hwaking => ?_
    rw [hthread] at hwaking
    exact absurd hwaking (hquiet rest)
  refine hcovered.update ?_ fun other _ _ _ hreason => hreason.imp id (hkeep other)
  intro _ _
  exact (hcovered proc () (by rw [hthread, hbound])).imp id (hkeep proc)

theorem owes_nothing (hthread : threads proc = thread)
    (hquiet : ∀ rest, thread ≠ .waking rest) {place : Thread count} :
    ∀ target rest, target ≠ proc → threads proc = .waking rest →
      target ∈ rest → ∃ rest, place = .waking rest ∧ target ∈ rest := by
  intro target rest _ hwaking
  rw [hthread] at hwaking
  exact absurd hwaking (hquiet rest)

/-- Taking the inner spin lock. -/
theorem Invariant.acquire (hinvariant : Invariant machine) {place : Thread count}
    (hacquire : machine.acquire proc place = some next) (hthread : machine.threads proc = thread)
    (hquiet : ∀ rest, thread ≠ .waking rest)
    (htoken : Token place ↔ Token thread) (hawake : place.phase = .awake) : Invariant next := by
  rw [Machine.acquire] at hacquire
  split at hacquire
  · next hfree =>
      cases hacquire
      have hguards := hinvariant.guards
      rw [hfree] at hguards
      exact ⟨hguards.acquire, hinvariant.owned.congr (token_same (hthread ▸ htoken)),
        covered_update hinvariant.covered (by simp [hawake, Phase.bound]) id
          (owes_nothing hthread hquiet)⟩
  · cases hacquire

theorem Invariant.proceed (hinvariant : Invariant machine)
    (hstep : proceed machine proc = some next) : Invariant next := by
  obtain ⟨hguards, howned, hcovered⟩ := hinvariant
  rw [SleepLock.proceed] at hstep
  split at hstep
  · cases hstep
  · next hthread =>
      exact Invariant.acquire ⟨hguards, howned, hcovered⟩ hstep hthread nofun Iff.rfl rfl
  · next hthread =>
      have hin : Inside (machine.threads proc) := hthread ▸ trivial
      split at hstep
      · next hlocked =>
          cases hstep
          exact ⟨hguards.move (fun _ => hin), howned.congr (token_same (by rw [hthread]; rfl)),
            covered_update hcovered (fun _ _ => hlocked) id (owes_nothing hthread nofun)⟩
      · next hfree =>
          cases hstep
          rw [Bool.not_eq_true] at hfree
          rw [hfree] at howned
          exact ⟨hguards.move (fun _ => hin), howned.take (token_gained trivial),
            covered_update hcovered nofun (fun _ => rfl) (owes_nothing hthread nofun)⟩
  · next hthread =>
      cases hstep
      have hin : Inside (machine.threads proc) := hthread ▸ trivial
      exact ⟨hguards.release hin id, howned.congr (token_same (by rw [hthread]; rfl)),
        covered_falling hcovered hthread rfl nofun⟩
  · next hthread =>
      cases hstep
      exact ⟨hguards.move (by rw [hthread]; exact id),
        howned.congr (token_same (by rw [hthread]; rfl)),
        covered_falling hcovered hthread rfl nofun⟩
  · cases hstep
  · next hthread =>
      cases hstep
      have hin : Inside (machine.threads proc) := hthread ▸ trivial
      exact ⟨hguards.release hin id, howned.make (hthread ▸ trivial) (token_lost id),
        covered_update hcovered nofun id (owes_nothing hthread nofun)⟩
  · next hthread =>
      exact Invariant.acquire ⟨hguards, howned, hcovered⟩ hstep hthread nofun Iff.rfl rfl
  · next hthread =>
      cases hstep
      have hin : Inside (machine.threads proc) := hthread ▸ trivial
      refine ⟨hguards.move (fun _ => hin), howned.clear (hthread ▸ trivial) (token_lost id),
        hcovered.update (fun _ hbound => nomatch hbound) ?_⟩
      intro other _ _ _ _
      exact Or.inr ⟨proc, _, update_self .., List.mem_finRange other⟩
  · next hthread =>
      cases hstep
      have hin : Inside (machine.threads proc) := hthread ▸ trivial
      refine ⟨hguards.release hin id, howned.congr (token_same (by rw [hthread]; rfl)),
        covered_update hcovered nofun id ?_⟩
      intro target rest _ hwaking hmem
      rw [hthread] at hwaking
      cases hwaking
      cases hmem
  · next target rest hthread =>
      have hin : Inside (machine.threads proc) := hthread ▸ trivial
      split at hstep
      · next hself =>
          cases hstep
          refine ⟨hguards.move (fun _ => hin), howned.congr (token_same (by rw [hthread]; rfl)),
            covered_update hcovered nofun id ?_⟩
          intro other list hother hwaking hmem
          rw [hthread] at hwaking
          cases hwaking
          rw [hself] at hmem
          exact ⟨rest, rfl, List.mem_of_ne_of_mem hother hmem⟩
      · next hother =>
          obtain ⟨visited, hvisit, rfl⟩ := Option.map_eq_some_iff.mp hstep
          have hsame : visited proc = .waking (target :: rest) := by
            rw [visit_awake hvisit (by rw [hthread]; rfl), hthread]
          refine ⟨(hguards.visit inside_wake hvisit).move ?_,
            (howned.congr (token_visit hvisit)).congr (token_same ?_),
            covered_waking hcovered hthread hvisit⟩
          · rw [hsame]
            exact id
          · change Token (.waking rest) ↔ Token (visited proc)
            rw [hsame]
            rfl

theorem Invariant.step {action : Action count} (hinvariant : Invariant machine)
    (hstep : step machine action = some next) : Invariant next := by
  cases action with
  | lock proc =>
    rw [SleepLock.step] at hstep
    split at hstep
    · next hthread =>
        cases hstep
        exact ⟨hinvariant.guards.move (by rw [hthread]; exact id),
          hinvariant.owned.congr (token_same (by rw [hthread]; rfl)),
          covered_update hinvariant.covered nofun id (owes_nothing hthread nofun)⟩
    · cases hstep
  | drop proc =>
    rw [SleepLock.step] at hstep
    split at hstep
    · next hdrop =>
        cases hstep
        exact ⟨hinvariant.guards.move (by rw [hdrop.1]; exact id),
          hinvariant.owned.drop hdrop.2 (token_gained trivial),
          covered_update hinvariant.covered nofun id (owes_nothing hdrop.1 nofun)⟩
    · cases hstep
  | kill proc =>
    obtain ⟨visited, hvisit, rfl⟩ := Option.map_eq_some_iff.mp hstep
    refine ⟨hinvariant.guards.visit inside_wake hvisit, hinvariant.owned.congr (token_visit hvisit),
      hinvariant.covered.visit (fun _ => rfl) hvisit ?_⟩
    rintro other _ ⟨waker, rest, hwaking, hmem⟩
    have hawake : (machine.threads waker).phase = .awake := by
      rw [hwaking]
      rfl
    exact Or.inr ⟨waker, rest, (visit_awake hvisit hawake).trans hwaking, hmem⟩
  | proceed proc => exact hinvariant.proceed hstep

end Steps

/-! ## Runs -/

def droppers (machine : Machine count) : Finset (Fin count) :=
  Finset.univ.filter fun proc => machine.threads proc = .dropping ∨ machine.threads proc = .clearing

def liveGuards (machine : Machine count) : ℕ :=
  machine.loose + (droppers machine).card

structure Sound (machine : Machine count) : Prop where
  guards_le : liveGuards machine ≤ 1
  locked_iff : machine.inner = none → (machine.locked = true ↔ liveGuards machine = 1)
  none_asleep : machine.inner = none → machine.locked = false →
    ∀ proc, machine.threads proc ≠ .asleep

theorem token_of_mem_droppers {machine : Machine count} {proc : Fin count}
    (hproc : proc ∈ droppers machine) : Token (machine.threads proc) := by
  rw [droppers, Finset.mem_filter] at hproc
  rcases hproc.2 with hthread | hthread <;> rw [hthread] <;> trivial

theorem Invariant.sound {machine : Machine count}
    (hinvariant : Invariant machine) : Sound machine := by
  obtain ⟨hguards, howned, hcovered⟩ := hinvariant
  by_cases hheld : ∃ proc, Token (machine.threads proc)
  · obtain ⟨proc, hproc⟩ := hheld
    obtain ⟨hlocked, hloose, honly⟩ := howned.token proc hproc
    have hcard : (droppers machine).card ≤ 1 := by
      rw [Finset.card_le_one]
      intro left hleft right hright
      rw [honly left (token_of_mem_droppers hleft), honly right (token_of_mem_droppers hright)]
    refine ⟨by rw [liveGuards]; omega, ?_, ?_⟩
    · intro hfree
      have hout : ¬Inside (machine.threads proc) := by
        intro hin
        rw [hguards proc hin] at hfree
        cases hfree
      have hmem : proc ∈ droppers machine := by
        rw [droppers, Finset.mem_filter]
        refine ⟨Finset.mem_univ proc, ?_⟩
        cases hthread : machine.threads proc <;> rw [hthread] at hproc hout <;>
          first | exact Or.inl rfl | exact absurd trivial hout | cases hproc
      have hpos := Finset.card_pos.mpr ⟨proc, hmem⟩
      exact iff_of_true hlocked (by rw [liveGuards]; omega)
    · intro _ hunlocked
      rw [hlocked] at hunlocked
      cases hunlocked
  · have hnone : ∀ proc, ¬Token (machine.threads proc) := fun proc hproc => hheld ⟨proc, hproc⟩
    have hcard : (droppers machine).card = 0 := by
      rw [Finset.card_eq_zero, Finset.eq_empty_iff_forall_notMem]
      exact fun proc hproc => hnone proc (token_of_mem_droppers hproc)
    have hloose := howned.loose_eq hnone
    refine ⟨?_, ?_, ?_⟩
    · rw [liveGuards, hcard, hloose]
      split <;> omega
    · intro _
      rw [liveGuards, hcard, hloose]
      split
      · next hlocked => exact iff_of_true hlocked rfl
      · next hlocked => exact iff_of_false hlocked (by decide)
    · intro hfree hunlocked proc hasleep
      rcases hcovered proc () (by rw [hasleep]; rfl) with hlocked | hpending
      · rw [hunlocked] at hlocked
        cases hlocked
      · obtain ⟨waker, rest, hwaking, -⟩ := hpending
        have hin := hguards waker (by rw [hwaking]; trivial)
        rw [hfree] at hin
        cases hin

/-- A sleep lock excludes and loses no wake-up, whatever any number of processes
do with it. -/
theorem run_exclusive {record : List (Machine count × Action count)}
    {last : Machine count} (hrun : Run step (boot count) record last) :
    Sound last ∧ ∀ entry ∈ record, Sound entry.1 := by
  obtain ⟨hlast, hstates⟩ := hrun.always
    (fun _ _ _ hinvariant hstep => hinvariant.step hstep) (invariant_boot count)
  exact ⟨hlast.sound, fun entry hentry => (hstates entry hentry).sound⟩

/-- The second process finds the lock taken and sleeps until the first one drops
its guard. -/
def sampleActions : List (Action 2) :=
  [.lock 0, .proceed 0, .proceed 0, .proceed 0, .lock 1, .proceed 1,
    .proceed 1, .proceed 1, .drop 0, .proceed 0, .proceed 0, .proceed 1,
    .proceed 0, .proceed 0, .proceed 0, .proceed 1, .proceed 1, .proceed 1]

theorem run_exclusive_sample : ∃ record last,
    Run step (boot 2) record last ∧ record.map Prod.snd = sampleActions ∧
      Sound last ∧ liveGuards last = 1 := by
  have hsome : ((sampleActions.foldlM step (boot 2)).any
      fun last => liveGuards last = 1) = true := by decide +kernel
  obtain ⟨record, last, hrun, hactions, hguards⟩ := Run.of_any hsome
  exact ⟨record, last, hrun, hactions, (run_exclusive hrun).1, hguards⟩

end RxOs.SleepLock
