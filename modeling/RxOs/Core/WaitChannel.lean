import Mathlib

/-!
# Spin locks and wait channels

Processes run threads, and a thread is at one place of a program.  A spin lock
guards the places inside its sections.  A process that waits takes its own lock,
lets go of the spin lock, and sleeps on a channel; to wake the sleepers of a
channel, one goes through all processes and takes the lock of each of them.  No
wake-up is lost as long as every process on its way to sleep, or asleep, has a
reason to be or has still to be visited.
-/

namespace RxOs.WaitChannel

open Function

variable {Proc Thread Chan : Type*} [DecidableEq Proc]
variable {threads next : Proc → Thread} {proc target : Proc} {thread : Thread}

/-! ## Spin locks -/

section SpinLocks

variable {inside : Thread → Prop} {lock : Option Proc}

/-- A process whose thread is inside has the lock. -/
def Guards (inside : Thread → Prop) (lock : Option Proc) (threads : Proc → Thread) : Prop :=
  ∀ proc, inside (threads proc) → lock = some proc

omit [DecidableEq Proc] in
theorem Guards.unique (hguards : Guards inside lock threads) {other : Proc}
    (hproc : inside (threads proc)) (hother : inside (threads other)) : other = proc := by
  have hlock := hguards proc hproc
  rw [hguards other hother] at hlock
  exact Option.some.inj hlock

/-- A thread moves without going in. -/
theorem Guards.move (hguards : Guards inside lock threads)
    (hsame : inside thread → inside (threads proc)) :
    Guards inside lock (update threads proc thread) := by
  intro other hinside
  by_cases hother : other = proc
  · rw [hother, update_self] at hinside
    rw [hother]
    exact hguards proc (hsame hinside)
  · rw [update_of_ne hother] at hinside
    exact hguards other hinside

theorem Guards.acquire (hguards : Guards inside none threads) :
    Guards inside (some proc) (update threads proc thread) := by
  intro other hinside
  by_cases hother : other = proc
  · rw [hother]
  · rw [update_of_ne hother] at hinside
    exact nomatch hguards other hinside

theorem Guards.release (hguards : Guards inside lock threads)
    (hproc : inside (threads proc)) (houtside : ¬inside thread) :
    Guards inside none (update threads proc thread) := by
  intro other hinside
  by_cases hother : other = proc
  · rw [hother, update_self] at hinside
    exact absurd hinside houtside
  · rw [update_of_ne hother] at hinside
    exact absurd (hguards.unique hproc hinside) hother

end SpinLocks

/-! ## Sleeping -/

/-- Awake, or with its own lock taken on the way to sleep, or asleep. -/
inductive Phase (Chan : Type*)
  | awake
  | falling (chan : Chan)
  | asleep (chan : Chan)
  deriving DecidableEq

def Phase.bound : Phase Chan → Option Chan
  | awake => none
  | falling chan => some chan
  | asleep chan => some chan

variable [DecidableEq Chan] {phase : Thread → Phase Chan}
variable {wake : Thread → Thread} {chan : Chan}

/-- Look at one process with its lock held and wake it if it sleeps on the
channel.  The lock of a process on its way to sleep is not free. -/
def visit (phase : Thread → Phase Chan) (wake : Thread → Thread) (chan : Chan)
    (target : Proc) (threads : Proc → Thread) : Option (Proc → Thread) :=
  match phase (threads target) with
  | .awake => some threads
  | .falling _ => none
  | .asleep other =>
    if other = chan then some (update threads target (wake (threads target)))
    else some threads

/-- What a visit does. -/
theorem visit_cases (hvisit : visit phase wake chan target threads = some next) :
    (next = threads ∧ (phase (threads target)).bound ≠ some chan) ∨
      (phase (threads target) = .asleep chan ∧
        next = update threads target (wake (threads target))) := by
  rw [visit] at hvisit
  split at hvisit
  · next hphase =>
      refine Or.inl ⟨(Option.some.inj hvisit).symm, ?_⟩
      rw [hphase]
      nofun
  · cases hvisit
  · next other hphase =>
      split at hvisit
      · next hsame =>
          rw [hsame] at hphase
          exact Or.inr ⟨hphase, (Option.some.inj hvisit).symm⟩
      · next hother =>
          refine Or.inl ⟨(Option.some.inj hvisit).symm, ?_⟩
          rw [hphase]
          exact fun hbound => hother (Option.some.inj hbound)

/-- A visit leaves all processes alone that are awake. -/
theorem visit_awake {other : Proc} (hvisit : visit phase wake chan target threads = some next)
    (hawake : phase (threads other) = .awake) : next other = threads other := by
  rcases visit_cases hvisit with ⟨rfl, -⟩ | ⟨hasleep, rfl⟩
  · rfl
  · refine update_of_ne ?_ _ _
    rintro rfl
    rw [hawake] at hasleep
    cases hasleep

/-- What holds of all threads still does after a visit. -/
theorem visit_forall {property : Proc → Thread → Prop} (hall : ∀ proc, property proc (threads proc))
    (hwake : ∀ proc thread, phase thread = .asleep chan →
      property proc thread → property proc (wake thread))
    (hvisit : visit phase wake chan target threads = some next) (proc : Proc) :
    property proc (next proc) := by
  rcases visit_cases hvisit with ⟨rfl, -⟩ | ⟨hasleep, rfl⟩
  · exact hall proc
  · by_cases hproc : proc = target
    · rw [hproc, update_self]
      exact hwake target _ hasleep (hall target)
    · rw [update_of_ne hproc]
      exact hall proc

/-- Waking a process does not take it into a section. -/
theorem Guards.visit {inside : Thread → Prop} {lock : Option Proc}
    (hguards : Guards inside lock threads) (hwake : ∀ thread, phase thread = .asleep chan →
      inside (wake thread) → inside thread)
    (hvisit : visit phase wake chan target threads = some next) : Guards inside lock next := by
  rcases visit_cases hvisit with ⟨rfl, -⟩ | ⟨hasleep, rfl⟩
  · exact hguards
  · exact hguards.move (hwake _ hasleep)

variable {reason newReason : Chan → Prop}
variable {pending newPending : Chan → Proc → Prop}

/-- Whoever sleeps, or is about to, has a reason or will be visited. -/
def Covered (phase : Thread → Phase Chan) (threads : Proc → Thread)
    (reason : Chan → Prop) (pending : Chan → Proc → Prop) : Prop :=
  ∀ proc chan, (phase (threads proc)).bound = some chan → reason chan ∨ pending chan proc

omit [DecidableEq Chan] in
/-- One thread moves. -/
theorem Covered.update (hcovered : Covered phase threads reason pending)
    (hself : ∀ chan, (phase thread).bound = some chan → newReason chan ∨ newPending chan proc)
    (hothers : ∀ other, other ≠ proc → ∀ chan, (phase (threads other)).bound = some chan →
      reason chan ∨ pending chan other → newReason chan ∨ newPending chan other) :
    Covered phase (Function.update threads proc thread) newReason
      newPending := by
  intro other chan hbound
  by_cases hother : other = proc
  · rw [hother, update_self] at hbound
    rw [hother]
    exact hself chan hbound
  · rw [update_of_ne hother] at hbound
    exact hothers other hother chan hbound (hcovered other chan hbound)

/-- After the visit of its target a loop need not come back to it. -/
theorem Covered.visit (hcovered : Covered phase threads reason pending)
    (hwake : ∀ thread, (phase (wake thread)).bound = none)
    (hvisit : visit phase wake chan target threads = some next)
    (hothers : ∀ other channel, pending channel other →
      (other = target ∧ channel = chan) ∨ newPending channel other) :
    Covered phase next reason newPending := by
  have hstay : ∀ other channel, (phase (threads other)).bound = some channel →
      ¬(other = target ∧ channel = chan) → reason channel ∨ newPending channel other := by
    intro other channel hbound hne
    rcases hcovered other channel hbound with hreason | hpending
    · exact Or.inl hreason
    · exact Or.inr ((hothers other channel hpending).resolve_left hne)
  rcases visit_cases hvisit with ⟨rfl, hfree⟩ | ⟨-, rfl⟩
  · intro other channel hbound
    refine hstay other channel hbound ?_
    rintro ⟨rfl, rfl⟩
    exact hfree hbound
  · intro other channel hbound
    by_cases hother : other = target
    · rw [hother, update_self, hwake] at hbound
      cases hbound
    · rw [update_of_ne hother] at hbound
      exact hstay other channel hbound fun hsame => hother hsame.1

end RxOs.WaitChannel
