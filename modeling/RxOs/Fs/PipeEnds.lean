import RxOs.Fs.PipeStream

/-!
# The two ends of a pipe

`Pipe::clone` makes a new mutex for each of the two files, so a call on one end
does not wait for a call on the other.  The calls exclude each other exactly in
those runs in which they happen to come one after the other.  In such runs no
reader misses a wake-up, and the page of the pipe is given back once.
-/

namespace RxOs.PipeEnds

open Function Transition RingBuffer WaitChannel PipeMachine

variable {count : ℕ}

def Enters : Thread count → Prop
  | .writeEnter .. | .readEnter .. | .closeEnter .. => True
  | _ => False

/-- A mutex is taken only while no other call is inside. -/
def Admitted (machine : Machine count) : Action count → Prop
  | .proceed proc _ => Enters (machine.threads proc) → ∀ other, (machine.threads other).holds = none
  | _ => True

/-- At most one call is between its acquire and its release. -/
def Exclusive (threads : Fin count → Thread count) : Prop :=
  ∀ left right, (threads left).holds ≠ none → (threads right).holds ≠ none →
    left = right

section Exclusive

variable {machine next : Machine count} {action : Action count}
variable {shared shared' : Shared count} {thread place : Thread count}
variable {proc target : Fin count} {byte : UInt8} {chan : Side}
variable {threads visited : Fin count → Thread count}

theorem Exclusive.move (hexclusive : Exclusive threads)
    (hholds : place.holds ≠ none → (threads proc).holds ≠ none ∨
      ∀ other, (threads other).holds = none) : Exclusive (update threads proc place) := by
  have halone : ∀ other, other ≠ proc → place.holds ≠ none → (threads other).holds = none := by
    intro other hother hplace
    rcases hholds hplace with hproc | hnone
    · by_contra hheld
      exact hother (hexclusive other proc hheld hproc)
    · exact hnone other
  intro left right hleft hright
  by_cases hl : left = proc <;> by_cases hr : right = proc
  · rw [hl, hr]
  · rw [hl, update_self] at hleft
    rw [update_of_ne hr] at hright
    exact absurd (halone right hr hleft) hright
  · rw [hr, update_self] at hright
    rw [update_of_ne hl] at hleft
    exact absurd (halone left hl hright) hleft
  · rw [update_of_ne hl] at hleft
    rw [update_of_ne hr] at hright
    exact hexclusive left right hleft hright

/-- A step of a call goes inside only from the places in front. -/
theorem holds_advance (hadvance : advance shared proc byte thread = some (shared', place))
    (hplace : place.holds ≠ none) : thread.holds ≠ none ∨ Enters thread := by
  cases thread with
  | idle => cases hadvance
  | writeEnter | readEnter | closeEnter => exact Or.inr trivial
  | writeNap n i nap | readNap n nap =>
    cases nap with
    | locked => exact Or.inl nofun
    | falling =>
      obtain ⟨-, rfl⟩ := Prod.mk.inj (Option.some.inj hadvance)
      exact absurd rfl hplace
    | asleep => cases hadvance
  | _ => exact Or.inl nofun

theorem holds_waking (hwaking : thread.waking = some (chan, target, place)) :
    thread.holds = place.holds ∧ thread.holds ≠ none ∧
      thread.closes = place.closes ∧ thread.phase = .awake ∧ place.phase = .awake := by
  rw [Thread.waking.eq_def] at hwaking
  split at hwaking <;> cases hwaking <;>
    exact ⟨rfl, Option.some_ne_none _, rfl, rfl, rfl⟩

theorem holds_wake (thread : Thread count) (hasleep : thread.phase = .asleep chan) :
    thread.wake.holds = thread.holds ∧ thread.wake.closes = thread.closes ∧
      thread.holds = none := by
  cases thread with
  | writeNap n i nap | readNap n nap =>
    cases nap with
    | asleep => exact ⟨rfl, rfl, rfl⟩
    | _ => cases hasleep
  | _ => cases hasleep

/-- A visit leaves everybody where they are with respect to the mutexes. -/
theorem holds_visit (hvisit : visit Thread.phase Thread.wake chan target threads =
      some visited) (other : Fin count) :
    (visited other).holds = (threads other).holds ∧
      (visited other).closes = (threads other).closes := by
  rcases visit_cases hvisit with ⟨rfl, -⟩ | ⟨hasleep, rfl⟩
  · exact ⟨rfl, rfl⟩
  · by_cases hother : other = target
    · obtain ⟨hholds, hcloses, -⟩ := holds_wake _ hasleep
      rw [hother, update_self]
      exact ⟨hholds, hcloses⟩
    · rw [update_of_ne hother]
      exact ⟨rfl, rfl⟩

theorem pipe_of_outside (hadvance : advance shared proc byte thread = some (shared', place))
    (hout : thread.holds = none) : shared'.pipe = shared.pipe := by
  rcases advance_pipe hadvance with
    hpipe | ⟨n, i, rfl, -⟩ | ⟨n, i, rfl, -⟩ | ⟨side, rfl, -⟩
  · exact hpipe
  · cases hout
  · cases hout
  · cases hout

end Exclusive

/-! ## Wake-ups -/

/-- Why a process may sleep on a channel.  For the writers nothing is said. -/
def Reason (shared : Shared count) : Side → Prop
  | .read => shared.pipe.nread = shared.pipe.nwrite ∧ shared.pipe.writeopen = true
  | .write => True

/-- The thread will visit the target on the channel before it lets go of the
mutex. -/
def Owes (thread : Thread count) (chan : Side) (target : Fin count) : Prop :=
  match thread with
  | .writeLoop _ _ | .writeRoom _ _ => chan = .read
  | .writeFull _ _ rest => chan = .read ∧ target ∈ rest
  | .writeEnd _ rest => chan = .read ∧ target ∈ rest
  | .closeWake side rest => chan = side.other ∧ target ∈ rest
  | _ => False

/-- Somebody will visit the target. -/
def Pending (threads : Fin count → Thread count) (chan : Side) (target : Fin count) : Prop :=
  ∃ proc, Owes (threads proc) chan target

/-- What a reader has found out on its way to `sleep`. -/
def Tested (shared : Shared count) : Thread count → Prop
  | .readOpen _ => shared.pipe.nread = shared.pipe.nwrite
  | .readKilled _ => Reason shared .read
  | _ => True

/-- Sleeping readers have reason to sleep, and a reader that is about to sleep
has found it. -/
structure Waits (machine : Machine count) : Prop where
  covered : Covered Thread.phase machine.threads (Reason machine.shared) (Pending machine.threads)
  tested : ∀ proc, Tested machine.shared (machine.threads proc)

section Waits

variable {machine next : Machine count} {shared shared' : Shared count}
variable {thread place : Thread count} {proc target : Fin count}
variable {byte : UInt8} {chan : Side}
variable {threads visited : Fin count → Thread count}

theorem Pending.update (hpending : Pending threads chan target)
    (hproc : Owes (threads proc) chan target → Owes place chan target) :
    Pending (update threads proc place) chan target := by
  obtain ⟨waker, howes⟩ := hpending
  by_cases hsame : waker = proc
  · rw [hsame] at howes
    exact ⟨proc, by rw [update_self]; exact hproc howes⟩
  · exact ⟨waker, by rwa [update_of_ne hsame]⟩

/-- A step that takes the reason to sleep away is followed by visits. -/
theorem reason_advance (hadvance : advance shared proc byte thread = some (shared', place))
    (hreason : Reason shared chan) : Reason shared' chan ∨ Owes place chan target := by
  cases chan with
  | write => exact Or.inl trivial
  | read =>
    rcases advance_pipe hadvance with hpipe | ⟨n, i, rfl, rfl, rfl⟩ |
      ⟨n, i, rfl, rfl, hsome, rfl⟩ | ⟨side, rfl, rfl, rfl⟩
    · left
      rw [Reason, hpipe]
      exact hreason
    · exact Or.inr rfl
    · exact absurd hreason.1 hsome
    · cases side with
      | read => exact Or.inl hreason
      | write => exact Or.inr ⟨rfl, List.mem_finRange target⟩

/-- A call lets go of the mutex without its visits only if the read end is
closed. -/
theorem owes_advance (hquiet : thread.waking = none)
    (hadvance : advance shared proc byte thread = some (shared', place))
    (howes : Owes thread chan target) :
    Owes place chan target ∨ chan = .read ∧ shared.pipe.readopen = false := by
  cases thread with
  | writeLoop n i =>
    obtain rfl : chan = .read := howes
    simp only [advance] at hadvance
    split_ifs at hadvance with hdone hkilled
    · obtain ⟨-, rfl⟩ := Prod.mk.inj (Option.some.inj hadvance)
      exact Or.inl ⟨rfl, List.mem_finRange target⟩
    · exact Or.inr ⟨rfl, hkilled.1⟩
    · obtain ⟨-, rfl⟩ := Prod.mk.inj (Option.some.inj hadvance)
      exact Or.inl rfl
  | writeRoom n i =>
    obtain rfl : chan = .read := howes
    simp only [advance] at hadvance
    split_ifs at hadvance with hlimit hfull
    · obtain ⟨-, rfl⟩ := Prod.mk.inj (Option.some.inj hadvance)
      exact Or.inl ⟨rfl, List.mem_finRange target⟩
    · obtain ⟨-, rfl⟩ := Prod.mk.inj (Option.some.inj hadvance)
      exact Or.inl rfl
  | writeFull n i rest | writeEnd n rest | closeWake side rest =>
    cases rest with
    | nil => exact absurd howes.2 List.not_mem_nil
    | cons => cases hquiet
  | _ => exact howes.elim

theorem advance_readOpen {n : ℕ}
    (hadvance : advance shared proc byte thread = some (shared', .readOpen n)) :
    shared' = shared ∧ shared.pipe.nread = shared.pipe.nwrite := by
  rw [advance.eq_def] at hadvance
  split at hadvance
  all_goals first
    | split_ifs at hadvance with hempty <;> cases hadvance
    | cases (acquire_eq hadvance).2.1
    | cases hadvance
  exact ⟨rfl, hempty⟩

theorem advance_readKilled {n : ℕ} (hadvance : advance shared proc byte thread =
      some (shared', .readKilled n)) :
    shared' = shared ∧ thread = .readOpen n ∧ shared.pipe.writeopen = true := by
  rw [advance.eq_def] at hadvance
  split at hadvance
  all_goals first
    | split_ifs at hadvance with hopen <;> cases hadvance
    | cases (acquire_eq hadvance).2.1
    | cases hadvance
  exact ⟨rfl, rfl, hopen⟩

/-- How a reader gets to `sleep`, and on in it. -/
theorem advance_bound (hadvance : advance shared proc byte thread = some (shared', place))
    (hbound : place.phase.bound = some .read) :
    shared'.pipe = shared.pipe ∧
      ((∃ n, thread = .readKilled n) ∨ thread.phase.bound = some .read) := by
  rw [advance.eq_def] at hadvance
  split at hadvance
  all_goals first
    | split_ifs at hadvance <;> cases hadvance <;> cases hbound
    | cases (acquire_eq hadvance).2.1; cases hbound
    | cases hadvance; cases hbound
    | cases hadvance
  · next n _ => exact ⟨rfl, Or.inl ⟨n, rfl⟩⟩
  · exact ⟨rfl, Or.inr rfl⟩
  · exact ⟨rfl, Or.inr rfl⟩

theorem owes_awake (howes : Owes thread chan target) : thread.phase = .awake := by
  cases thread with
  | writeNap n i nap => exact howes.elim
  | readNap n nap => exact howes.elim
  | _ => rfl

/-- A visit is one less to make. -/
theorem owes_waking {channel : Side} {other : Fin count}
    (hwaking : thread.waking = some (chan, target, place)) (howes : Owes thread channel other) :
    (other = target ∧ channel = chan) ∨ Owes place channel other := by
  rw [Thread.waking.eq_def] at hwaking
  split at hwaking <;> cases hwaking
  case h_3 => exact howes.elim
  all_goals
    obtain ⟨rfl, hmem⟩ := howes
    exact (List.mem_cons.mp hmem).imp (⟨·, rfl⟩) (⟨rfl, ·⟩)

theorem bound_wake (thread : Thread count) : thread.wake.phase.bound = none := by
  cases thread <;> rfl

theorem Tested.wake (htested : Tested shared thread) : Tested shared thread.wake := by
  cases thread <;> exact htested

theorem Tested.congr (htested : Tested shared thread)
    (hpipe : shared'.pipe = shared.pipe) : Tested shared' thread := by
  cases thread with
  | readOpen n =>
    change shared'.pipe.nread = shared'.pipe.nwrite
    rw [hpipe]
    exact htested
  | readKilled n =>
    change _ ∧ _
    rw [hpipe]
    exact htested
  | _ => trivial

theorem tested_of_outside (hout : thread.holds = none) : Tested shared thread := by
  cases thread with
  | readOpen n => cases hout
  | readKilled n => cases hout
  | _ => trivial

theorem uses_of_bound {side : Side} (hbound : thread.phase.bound = some side) :
    thread.uses = some side := by
  cases thread with
  | writeNap n i nap => cases nap <;> exact hbound
  | readNap n nap => cases nap <;> exact hbound
  | _ => cases hbound

theorem tested_waking (hwaking : thread.waking = some (chan, target, place)) :
    Tested shared place := by
  rw [Thread.waking.eq_def] at hwaking
  split at hwaking <;> cases hwaking <;> trivial

theorem Waits.waking (hwaits : Waits machine)
    (hwaking : (machine.threads proc).waking = some (chan, target, place))
    (hvisit : target = proc ∧ visited = machine.threads ∨
      visit Thread.phase Thread.wake chan target machine.threads = some visited) :
    Waits { machine with threads := update visited proc place } := by
  obtain ⟨-, -, -, -, hawake⟩ := holds_waking hwaking
  have hpending : ∀ other channel, Pending machine.threads channel other →
      (other = target ∧ channel = chan) ∨ Pending (update visited proc place) channel other := by
    rintro other channel ⟨waker, howes⟩
    by_cases hwaker : waker = proc
    · rw [hwaker] at howes
      refine (owes_waking hwaking howes).imp id fun howes => ⟨proc, ?_⟩
      rwa [update_self]
    · refine Or.inr ⟨waker, ?_⟩
      rw [update_of_ne hwaker]
      rcases hvisit with ⟨-, rfl⟩ | hvisit
      · exact howes
      · rwa [visit_awake hvisit (owes_awake howes)]
  have hself : ∀ channel, place.phase.bound = some channel → Reason machine.shared channel ∨
        Pending (update visited proc place) channel proc := by
    intro channel hbound
    rw [hawake] at hbound
    cases hbound
  refine ⟨?_, (forall_update_iff _ fun _ => Tested machine.shared).mpr
    ⟨tested_waking hwaking, fun other _ => ?_⟩⟩
  · rcases hvisit with ⟨htarget, rfl⟩ | hvisit
    · refine hwaits.covered.update hself ?_
      intro other hother channel _ hreason
      refine hreason.imp id fun hwaiting => ?_
      refine (hpending other channel hwaiting).resolve_left ?_
      exact fun hvisited => hother (hvisited.1.trans htarget)
    · exact (hwaits.covered.visit bound_wake hvisit hpending).update hself
        fun _ _ _ _ hreason => hreason
  · rcases hvisit with ⟨-, rfl⟩ | hvisit
    · exact hwaits.tested other
    · exact visit_forall hwaits.tested (fun _ _ _ htested => htested.wake) hvisit other

theorem Waits.advance (hstream : PipeStream.Invariant machine)
    (hexclusive : Exclusive machine.threads) (hwaits : Waits machine)
    (hquiet : (machine.threads proc).waking = none)
    (hadvance : advance machine.shared proc byte (machine.threads proc) = some (shared, place)) :
    Waits ⟨shared, update machine.threads proc place⟩ := by
  have hkeep : ∀ other, other ≠ proc → ∀ channel,
      (machine.threads other).phase.bound = some channel → Reason machine.shared channel ∨
        Pending machine.threads channel other → Reason shared channel ∨
        Pending (update machine.threads proc place) channel other := by
    intro other hother channel hbound hreason
    have hself : Owes place channel other →
        Pending (update machine.threads proc place) channel other :=
      fun howes => ⟨proc, by rwa [update_self]⟩
    rcases hreason with hreason | ⟨waker, howes⟩
    · exact (reason_advance hadvance hreason).imp id hself
    · by_cases hwaker : waker = proc
      · rw [hwaker] at howes
        rcases owes_advance hquiet hadvance howes with howes | ⟨rfl, hclosed⟩
        · exact Or.inr (hself howes)
        · have hgone := hstream.flowing.shut .read hclosed
          rw [(hstream.locals other).uses .read (uses_of_bound hbound)] at hgone
          cases hgone
      · exact Or.inr ⟨waker, by rwa [update_of_ne hwaker]⟩
  refine ⟨hwaits.covered.update ?_ hkeep, (forall_update_iff _ fun _ => Tested shared).mpr ⟨?_, ?_⟩⟩
  · intro channel hbound
    cases channel with
    | write => exact Or.inl trivial
    | read =>
      obtain ⟨hpipe, ⟨n, hthread⟩ | hbefore⟩ := advance_bound hadvance hbound
      · have htested := hwaits.tested proc
        rw [hthread] at htested
        left
        rw [Reason, hpipe]
        exact htested
      · refine (hwaits.covered proc .read hbefore).imp ?_ ?_
        · intro hreason
          rw [Reason, hpipe]
          exact hreason
        · intro hpending
          refine hpending.update fun howes => ?_
          rw [owes_awake howes] at hbefore
          cases hbefore
  · cases hplace : place with
    | readOpen n =>
      rw [hplace] at hadvance
      obtain ⟨rfl, hempty⟩ := advance_readOpen hadvance
      exact hempty
    | readKilled n =>
      rw [hplace] at hadvance
      obtain ⟨rfl, hthread, hopen⟩ := advance_readKilled hadvance
      have htested := hwaits.tested proc
      rw [hthread] at htested
      exact ⟨htested, hopen⟩
    | _ => trivial
  · intro other hother
    by_cases hout : (machine.threads other).holds = none
    · exact tested_of_outside hout
    · refine (hwaits.tested other).congr (pipe_of_outside hadvance ?_)
      by_contra hin
      exact hother (hexclusive other proc hout hin)

theorem Waits.congr (hwaits : Waits machine) (hpipe : shared.pipe = machine.shared.pipe) :
    Waits ⟨shared, machine.threads⟩ := by
  refine ⟨?_, fun other => (hwaits.tested other).congr hpipe⟩
  intro other channel hbound
  refine (hwaits.covered other channel hbound).imp ?_ id
  intro hreason
  cases channel with
  | write => trivial
  | read =>
    rw [Reason, hpipe]
    exact hreason

theorem Waits.quiet (hwaits : Waits machine)
    (hproc : ∀ chan target, ¬Owes (machine.threads proc) chan target)
    (hbound : place.phase.bound = none) (htested : Tested machine.shared place) :
    Waits { machine with threads := update machine.threads proc place } := by
  refine ⟨hwaits.covered.update ?_ ?_, (forall_update_iff _ fun _ => Tested machine.shared).mpr
      ⟨htested, fun other _ => hwaits.tested other⟩⟩
  · intro channel hself
    rw [hbound] at hself
    cases hself
  · intro other _ channel _ hbefore
    exact hbefore.imp id fun hpending =>
      hpending.update fun howes => absurd howes (hproc channel other)

end Waits

/-! ## Closing -/

/-- The flag of an end before and after `close` cleared it. -/
def Flag (shared : Shared count) : Thread count → Prop
  | .closeEnter side | .closeMark side => shared.pipe.isOpen side = true
  | .closeWake side _ | .closeTest side => shared.pipe.isOpen side = false
  | _ => True

/-- Each end is closed by one call, and the page is given back by the last of
the two. -/
structure Closing (machine : Machine count) : Prop where
  flags : ∀ proc, Flag machine.shared (machine.threads proc)
  closers : ∀ left right side, (machine.threads left).closes = some side →
    (machine.threads right).closes = some side → left = right
  closing : ∀ side, machine.shared.opened side = false → machine.shared.pipe.isOpen side = true →
      ∃ proc, (machine.threads proc).closes = some side
  freeing : (∀ side, machine.shared.pipe.isOpen side = false) →
    machine.shared.freed = 0 → ∃ proc, (machine.threads proc).closes ≠ none
  spent : 0 < machine.shared.freed → machine.shared.freed = 1 ∧
      (∀ side, machine.shared.pipe.isOpen side = false) ∧
      ∀ proc, (machine.threads proc).closes = none

section Closing

variable {machine next : Machine count} {shared shared' : Shared count}
variable {thread place : Thread count} {proc target : Fin count}
variable {byte : UInt8} {chan : Side}
variable {visited : Fin count → Thread count}

/-- A step that neither begins, marks nor ends a `close`. -/
theorem Closing.congr (hclosing : Closing machine)
    (hfreed : next.shared.freed = machine.shared.freed)
    (hopened : next.shared.opened = machine.shared.opened)
    (hopen : next.shared.pipe.isOpen = machine.shared.pipe.isOpen)
    (hcloses : ∀ proc, (next.threads proc).closes = (machine.threads proc).closes)
    (hflags : ∀ proc, Flag next.shared (next.threads proc)) : Closing next := by
  refine ⟨hflags, ?_, ?_, ?_, ?_⟩
  · intro left right side hleft hright
    rw [hcloses] at hleft hright
    exact hclosing.closers left right side hleft hright
  · intro side hgone hflag
    rw [hopened] at hgone
    rw [hopen] at hflag
    obtain ⟨proc, hproc⟩ := hclosing.closing side hgone hflag
    exact ⟨proc, by rwa [hcloses]⟩
  · intro hflag hzero
    rw [hopen] at hflag
    rw [hfreed] at hzero
    obtain ⟨proc, hproc⟩ := hclosing.freeing hflag hzero
    exact ⟨proc, by rwa [hcloses]⟩
  · intro hpos
    rw [hfreed] at hpos
    rw [hfreed, hopen]
    obtain ⟨hone, hflag, hnone⟩ := hclosing.spent hpos
    exact ⟨hone, hflag, fun proc => by rw [hcloses]; exact hnone proc⟩

theorem Flag.congr (hflag : Flag shared thread) (hopen : shared'.pipe.isOpen = shared.pipe.isOpen) :
    Flag shared' thread := by
  cases thread <;> first | exact trivial | (simp only [Flag, hopen]; exact hflag)

theorem Flag.wake (hflag : Flag shared thread) : Flag shared thread.wake := by
  cases thread <;> exact hflag

theorem flag_waking (hflag : Flag shared thread)
    (hwaking : thread.waking = some (chan, target, place)) : Flag shared place := by
  rw [Thread.waking.eq_def] at hwaking
  split at hwaking <;> cases hwaking <;> exact hflag

theorem flag_of_closes (hcloses : thread.closes = none) : Flag shared thread := by
  cases thread <;> first | exact trivial | cases hcloses

theorem closes_update {threads : Fin count → Thread count}
    (hplace : place.closes = (threads proc).closes)
    (hvisited : ∀ other, (visited other).closes = (threads other).closes) (other : Fin count) :
    (update visited proc place other).closes = (threads other).closes := by
  by_cases hother : other = proc
  · rw [hother, update_self, hplace]
  · rw [update_of_ne hother]
    exact hvisited other

theorem Closing.waking (hclosing : Closing machine)
    (hwaking : (machine.threads proc).waking = some (chan, target, place))
    (hvisit : target = proc ∧ visited = machine.threads ∨
      visit Thread.phase Thread.wake chan target machine.threads = some visited) :
    Closing { machine with threads := update visited proc place } := by
  obtain ⟨-, -, hcloses, -⟩ := holds_waking hwaking
  have hvisited : ∀ other, Flag machine.shared (visited other) ∧
      (visited other).closes = (machine.threads other).closes := by
    intro other
    rcases hvisit with ⟨-, rfl⟩ | hvisit
    · exact ⟨hclosing.flags other, rfl⟩
    · exact ⟨visit_forall hclosing.flags (fun _ _ _ hflag => hflag.wake)
        hvisit other, (holds_visit hvisit other).2⟩
  exact hclosing.congr rfl rfl rfl (closes_update hcloses.symm fun other => (hvisited other).2)
    ((forall_update_iff _ fun _ => Flag machine.shared).mpr
      ⟨flag_waking (hclosing.flags proc) hwaking, fun other _ => (hvisited other).1⟩)

theorem isOpen_shut (pipe : PipeInner) (side other : Side) :
    (pipe.shut side).isOpen other =
      if other = side then false else pipe.isOpen other := by
  cases side <;> cases other <;> rfl

/-- Calls of `read` and `write` do not close anything. -/
theorem advance_frame (hadvance : advance shared proc byte thread = some (shared', place))
    (hcloses : thread.closes = none) :
    place.closes = none ∧ shared'.freed = shared.freed ∧ shared'.opened = shared.opened ∧
      shared'.pipe.isOpen = shared.pipe.isOpen := by
  rw [advance.eq_def] at hadvance
  split at hadvance
  all_goals first
    | (split_ifs at hadvance <;> cases hadvance <;>
        exact ⟨rfl, rfl, rfl, rfl⟩)
    | (obtain ⟨-, rfl, rfl⟩ := acquire_eq hadvance; exact ⟨rfl, rfl, rfl, rfl⟩)
    | (cases hadvance; exact ⟨rfl, rfl, rfl, rfl⟩)
    | cases hcloses
    | cases hadvance

theorem isOpen_eq_false_iff (pipe : PipeInner) :
    (∀ side, pipe.isOpen side = false) ↔ pipe.readopen = false ∧ pipe.writeopen = false := by
  constructor
  · intro hall
    exact ⟨hall .read, hall .write⟩
  · rintro ⟨hread, hwrite⟩ side
    cases side with
    | read => exact hread
    | write => exact hwrite

theorem Flag.shut (hflag : Flag shared thread) {side : Side} (hne : thread.closes ≠ some side) :
    Flag { shared with pipe := shared.pipe.shut side } thread := by
  have hother : ∀ other, thread.closes = some other →
      (shared.pipe.shut side).isOpen other = shared.pipe.isOpen other := by
    intro other hcloses
    rw [isOpen_shut, if_neg]
    rintro rfl
    exact hne hcloses
  cases thread with
  | closeEnter other | closeMark other | closeWake other | closeTest other =>
    exact (hother other rfl).trans hflag
  | _ => trivial

theorem Flag.holds (hflag : Flag shared thread) {side : Side} (hcloses : thread.closes = some side)
    (hshut : shared.pipe.isOpen side = false) : thread.holds ≠ none := by
  cases thread with
  | closeEnter other =>
    cases hcloses
    exact Bool.noConfusion (hflag.symm.trans hshut)
  | closeMark other => nofun
  | closeWake other rest => nofun
  | closeTest other => nofun
  | _ => cases hcloses

/-- An end is marked as closed. -/
theorem Closing.shut (hclosing : Closing machine) {side : Side}
    (hthread : machine.threads proc = .closeMark side) (rest : List (Fin count)) :
    Closing ⟨{ machine.shared with pipe := machine.shared.pipe.shut side },
      update machine.threads proc (.closeWake side rest)⟩ := by
  have hproc : (machine.threads proc).closes = some side := by
    rw [hthread]
    rfl
  have hcloses : ∀ other, (update machine.threads proc
      (.closeWake side rest) other).closes = (machine.threads other).closes :=
    closes_update hproc.symm fun _ => rfl
  refine ⟨(forall_update_iff _ fun _ => Flag _).mpr ⟨?_, ?_⟩, ?_, ?_, ?_, ?_⟩
  · change (machine.shared.pipe.shut side).isOpen side = false
    rw [isOpen_shut, if_pos rfl]
  · intro other hother
    refine (hclosing.flags other).shut fun hsame => ?_
    exact hother (hclosing.closers other proc side hsame hproc)
  · intro left right other hleft hright
    rw [hcloses] at hleft hright
    exact hclosing.closers left right other hleft hright
  · intro other hgone hopen
    rw [isOpen_shut] at hopen
    split at hopen
    · cases hopen
    · obtain ⟨closer, hcloser⟩ := hclosing.closing other hgone hopen
      exact ⟨closer, (hcloses closer).trans hcloser⟩
  · intro _ _
    refine ⟨proc, ?_⟩
    rw [hcloses, hproc]
    nofun
  · intro hpos
    have hnone := (hclosing.spent hpos).2.2 proc
    rw [hproc] at hnone
    cases hnone

/-- A call of `close` begins. -/
theorem Closing.begin (hclosing : Closing machine)
    (hstream : PipeStream.Invariant machine) {side : Side} (hidle : machine.threads proc = .idle)
    (hfile : machine.shared.opened side = true) :
    Closing ⟨{ machine.shared with
        opened := update machine.shared.opened side false },
      update machine.threads proc (.closeEnter side)⟩ := by
  have hopen : machine.shared.pipe.isOpen side = true := by
    by_contra hshut
    rw [hstream.flowing.shut side (Bool.eq_false_iff.mpr hshut)] at hfile
    cases hfile
  have hothers : ∀ other, (machine.threads other).closes ≠ some side := by
    intro other hcloses
    rw [(hstream.locals other).closes side hcloses] at hfile
    cases hfile
  have hself : (update machine.threads proc (.closeEnter side) proc).closes = some side := by
    rw [update_self]
    rfl
  have hkept : ∀ other, other ≠ proc →
      (update machine.threads proc (.closeEnter side) other).closes =
        (machine.threads other).closes :=
    fun other hne => congrArg Thread.closes (update_of_ne hne ..)
  refine ⟨(forall_update_iff _ fun _ => Flag _).mpr
    ⟨hopen, fun other _ => (hclosing.flags other).congr rfl⟩, ?_, ?_, ?_, ?_⟩
  · intro left right other hleft hright
    by_cases hl : left = proc <;> by_cases hr : right = proc
    · rw [hl, hr]
    · rw [hl] at hleft
      obtain rfl := Option.some.inj (hself.symm.trans hleft)
      rw [hkept right hr] at hright
      exact absurd hright (hothers right)
    · rw [hr] at hright
      obtain rfl := Option.some.inj (hself.symm.trans hright)
      rw [hkept left hl] at hleft
      exact absurd hleft (hothers left)
    · rw [hkept left hl] at hleft
      rw [hkept right hr] at hright
      exact hclosing.closers left right other hleft hright
  · intro other hgone hflag
    by_cases hside : other = side
    · rw [hside]
      exact ⟨proc, hself⟩
    · obtain ⟨closer, hcloser⟩ := hclosing.closing other
        ((update_of_ne hside ..).symm.trans hgone) hflag
      have hne : closer ≠ proc := by
        rintro rfl
        rw [hidle] at hcloser
        cases hcloser
      exact ⟨closer, (hkept closer hne).trans hcloser⟩
  · intro _ _
    exact ⟨proc, by rw [hself]; nofun⟩
  · intro hpos
    have hshut := (hclosing.spent hpos).2.1 side
    rw [hopen] at hshut
    cases hshut

/-- A call of `close` returns. -/
theorem Closing.finish (hclosing : Closing machine) {side : Side}
    (hthread : machine.threads proc = .closeTest side) {freed : ℕ}
    {lock : Side → Option (Fin count)} (hspent : 0 < freed → freed = 1 ∧
      (∀ side, machine.shared.pipe.isOpen side = false) ∧
      ∀ other, other ≠ proc → (machine.threads other).closes = none)
    (hpages : (∀ side, machine.shared.pipe.isOpen side = false) → freed ≠ 0) :
    Closing ⟨{ machine.shared with freed := freed, lock := lock },
      update machine.threads proc .idle⟩ := by
  have hproc : (machine.threads proc).closes = some side := by
    rw [hthread]
    rfl
  have hsame : ∀ other side, (update machine.threads proc .idle other).closes =
      some side → (machine.threads other).closes = some side := by
    intro other side hcloses
    by_cases hother : other = proc
    · rw [hother, update_self] at hcloses
      cases hcloses
    · rwa [update_of_ne hother] at hcloses
  refine ⟨(forall_update_iff _ fun _ => Flag _).mpr
    ⟨trivial, fun other _ => (hclosing.flags other).congr rfl⟩, ?_, ?_, ?_, ?_⟩
  · intro left right other hleft hright
    exact hclosing.closers left right other (hsame left other hleft) (hsame right other hright)
  · intro other hgone hopen
    obtain ⟨closer, hcloser⟩ := hclosing.closing other hgone hopen
    have hne : closer ≠ proc := by
      rintro rfl
      rw [hproc] at hcloser
      cases hcloser
      have hflag := hclosing.flags closer
      rw [hthread] at hflag
      exact Bool.noConfusion (hopen.symm.trans hflag)
    exact ⟨closer, (congrArg Thread.closes (update_of_ne hne ..)).trans hcloser⟩
  · intro hflags hzero
    exact absurd hzero (hpages hflags)
  · intro hpos
    obtain ⟨hone, hflags, hnone⟩ := hspent hpos
    refine ⟨hone, hflags, ?_⟩
    intro other
    change (update machine.threads proc .idle other).closes = none
    by_cases hother : other = proc
    · rw [hother, update_self]
      rfl
    · rw [update_of_ne hother]
      exact hnone other hother

theorem Closing.advance (hexclusive : Exclusive machine.threads) (hclosing : Closing machine)
    (hadvance : advance machine.shared proc byte (machine.threads proc) = some (shared, place)) :
    Closing ⟨shared, update machine.threads proc place⟩ := by
  have hcongr : place.closes = (machine.threads proc).closes → shared.freed = machine.shared.freed →
      shared.opened = machine.shared.opened → shared.pipe.isOpen = machine.shared.pipe.isOpen →
      Flag shared place → Closing ⟨shared, update machine.threads proc place⟩ := by
    intro hcloses hfreed hopened hopen hflag
    exact hclosing.congr hfreed hopened hopen (closes_update hcloses fun _ => rfl)
      ((forall_update_iff _ fun _ => Flag shared).mpr ⟨hflag,
        fun other _ => (hclosing.flags other).congr hopen⟩)
  have hflag := hclosing.flags proc
  cases hthread : machine.threads proc with
  | closeEnter side =>
    rw [hthread] at hadvance hcongr hflag
    obtain ⟨-, rfl, rfl⟩ := acquire_eq hadvance
    exact hcongr rfl rfl rfl rfl hflag
  | closeMark side =>
    rw [hthread] at hadvance
    cases hadvance
    exact hclosing.shut hthread _
  | closeWake side rest =>
    rw [hthread] at hadvance hcongr hflag
    cases hadvance
    exact hcongr rfl rfl rfl rfl hflag
  | closeTest side =>
    rw [hthread] at hadvance
    have hproc : (machine.threads proc).closes ≠ none := by
      rw [hthread]
      exact Option.some_ne_none _
    have hunspent : machine.shared.freed = 0 := by
      by_contra hfreed
      exact hproc ((hclosing.spent (Nat.pos_of_ne_zero hfreed)).2.2 proc)
    simp only [PipeMachine.advance] at hadvance
    split_ifs at hadvance with hboth
    · cases hadvance
      have hflags := (isOpen_eq_false_iff _).mpr hboth
      refine hclosing.finish hthread ?_ (fun _ => Nat.succ_ne_zero _)
      intro _
      refine ⟨by rw [hunspent], hflags, ?_⟩
      intro other hother
      by_contra hcloses
      obtain ⟨closed, hclosed⟩ := Option.ne_none_iff_exists'.mp hcloses
      have hholds := (hclosing.flags other).holds hclosed (hflags closed)
      have hheld : (machine.threads proc).holds ≠ none := by
        rw [hthread]
        exact Option.some_ne_none _
      exact hother (hexclusive other proc hholds hheld)
    · cases hadvance
      refine hclosing.finish hthread ?_ ?_
      · intro hpos
        rw [hunspent] at hpos
        cases hpos
      · intro hflags
        exact absurd ((isOpen_eq_false_iff _).mp hflags) hboth
  | _ =>
    have hcloses : (machine.threads proc).closes = none := by
      rw [hthread]
      rfl
    obtain ⟨hplace, hfreed, hopened, hopen⟩ := advance_frame hadvance hcloses
    exact hcongr (hplace.trans hcloses.symm) hfreed hopened hopen (flag_of_closes hplace)

end Closing

/-! ## Runs -/

/-- The invariant of runs in which the calls come one after the other. -/
structure Ordered (machine : Machine count) : Prop where
  stream : PipeStream.Invariant machine
  exclusive : Exclusive machine.threads
  waits : Waits machine
  closing : Closing machine

theorem ordered_boot (data : ℕ → UInt8) :
    Ordered (boot data : Machine count) where
  stream := PipeStream.invariant_boot data
  exclusive := fun _ _ hleft => absurd rfl hleft
  waits := ⟨nofun, fun _ => trivial⟩
  closing := ⟨fun _ => trivial, nofun, nofun, fun hflags => absurd (hflags .read) nofun,
    fun hpos => absurd hpos (Nat.lt_irrefl 0)⟩

section Runs

variable {machine next : Machine count} {action : Action count}
variable {proc : Fin count} {byte : UInt8}

theorem Ordered.proceed (hordered : Ordered machine)
    (hadmitted : Admitted machine (.proceed proc byte))
    (hstep : proceed machine proc byte = some next) : Ordered next := by
  have hstream := hordered.stream.proceed hstep
  rcases proceed_cases hstep with
    ⟨chan, target, place, threads, hwaking, hvisit, rfl⟩ |
    ⟨shared, place, hquiet, hadvance, rfl⟩
  · obtain ⟨-, hholds, -⟩ := holds_waking hwaking
    refine ⟨hstream, ?_, hordered.waits.waking hwaking hvisit,
      hordered.closing.waking hwaking hvisit⟩
    have hthreads : ∀ other, (threads other).holds = (machine.threads other).holds := by
      intro other
      rcases hvisit with ⟨-, rfl⟩ | hvisit
      · rfl
      · exact (holds_visit hvisit other).1
    have hvisited : Exclusive threads := by
      intro left right hleft hright
      rw [hthreads] at hleft hright
      exact hordered.exclusive left right hleft hright
    refine hvisited.move fun _ => Or.inl ?_
    rw [hthreads]
    exact hholds
  · refine ⟨hstream, ?_, hordered.waits.advance hordered.stream hordered.exclusive hquiet hadvance,
      hordered.closing.advance hordered.exclusive hadvance⟩
    exact hordered.exclusive.move fun hplace => (holds_advance hadvance hplace).imp id hadmitted

/-- A process that is outside of all calls begins one. -/
theorem Ordered.enter (hordered : Ordered machine) {place : Thread count}
    (hidle : machine.threads proc = .idle) (hstep : PipeStream.Invariant
      { machine with threads := update machine.threads proc place })
    (hholds : place.holds = none) (hcloses : place.closes = none)
    (hbound : place.phase.bound = none) :
    Ordered { machine with threads := update machine.threads proc place } := by
  refine ⟨hstep, hordered.exclusive.move (fun hplace => absurd hholds hplace),
    hordered.waits.quiet ?_ hbound (tested_of_outside hholds), ?_⟩
  · intro chan target
    rw [hidle]
    exact id
  · exact hordered.closing.congr rfl rfl rfl
      (closes_update (by rw [hidle, hcloses]; rfl) fun _ => rfl)
      ((forall_update_iff _ fun _ => Flag _).mpr
        ⟨flag_of_closes hcloses, fun other _ => hordered.closing.flags other⟩)

theorem Ordered.step (hordered : Ordered machine) (hadmitted : Admitted machine action)
    (hstep : step machine action = some next) : Ordered next := by
  have hstream := hordered.stream.step hstep
  cases action with
  | close proc side =>
    rw [PipeMachine.step] at hstep
    split at hstep
    · next hcall =>
        obtain ⟨hidle, hfile, -⟩ := hcall
        cases hstep
        have hquiet : ∀ chan target, ¬Owes (machine.threads proc) chan target := by
          intro chan target
          rw [hidle]
          exact id
        have hwaits : Waits { machine with
            threads := update machine.threads proc (.closeEnter side) } :=
          hordered.waits.quiet hquiet rfl trivial
        exact ⟨hstream, hordered.exclusive.move (absurd rfl), hwaits.congr rfl,
          hordered.closing.begin hordered.stream hidle hfile⟩
    · cases hstep
  | kill proc =>
    simp only [PipeMachine.step] at hstep
    split at hstep
    · cases hstep
    · cases hstep
      exact ⟨hstream, hordered.exclusive, hordered.waits.congr rfl,
        hordered.closing.congr rfl rfl rfl (fun _ => rfl)
          fun other => (hordered.closing.flags other).congr rfl⟩
    · next hasleep =>
        cases hstep
        obtain ⟨hholds, hcloses, hout⟩ := holds_wake _ hasleep
        have hquiet : ∀ chan target, ¬Owes (machine.threads proc) chan target := by
          intro chan target howes
          rw [owes_awake howes] at hasleep
          cases hasleep
        exact ⟨hstream, hordered.exclusive.move (absurd (hholds.trans hout)),
          (hordered.waits.quiet hquiet (bound_wake _) (hordered.waits.tested proc).wake).congr rfl,
          hordered.closing.congr rfl rfl rfl (closes_update hcloses fun _ => rfl)
            ((forall_update_iff _ fun _ => Flag _).mpr
              ⟨((hordered.closing.flags proc).wake).congr rfl, fun other _ =>
                (hordered.closing.flags other).congr rfl⟩)⟩
  | proceed proc byte => exact hordered.proceed hadmitted hstep
  | _ =>
    rw [PipeMachine.step] at hstep
    split at hstep
    · next hcall =>
        cases hstep
        exact hordered.enter hcall.1 hstream rfl rfl rfl
    · cases hstep

/-- A call that goes inside while another one is there. -/
theorem exclusive_enter (hstep : step machine (.proceed proc byte) = some next)
    (henters : Enters (machine.threads proc))
    (hexclusive : Exclusive next.threads) (other : Fin count) :
    (machine.threads other).holds = none := by
  have hquiet : (machine.threads proc).waking = none := by
    generalize machine.threads proc = thread at henters
    cases thread with
    | writeEnter | readEnter | closeEnter => rfl
    | _ => exact henters.elim
  have hout : (machine.threads proc).holds = none := by
    generalize machine.threads proc = thread at henters
    cases thread with
    | writeEnter | readEnter | closeEnter => rfl
    | _ => exact henters.elim
  by_cases hother : other = proc
  · rw [hother]
    exact hout
  by_contra hheld
  rcases proceed_cases hstep with ⟨_, _, _, _, hwaking, -⟩ | ⟨shared, place, -, hadvance, rfl⟩
  · rw [hquiet] at hwaking
    cases hwaking
  · refine hother (hexclusive other proc ?_ ?_)
    · change (update machine.threads proc place other).holds ≠ none
      rwa [update_of_ne hother]
    · change (update machine.threads proc place proc).holds ≠ none
      rw [update_self]
      generalize machine.threads proc = thread at henters hadvance
      cases thread with
      | writeEnter | readEnter | closeEnter =>
        obtain ⟨-, rfl, -⟩ := acquire_eq hadvance
        nofun
      | _ => exact henters.elim

theorem owes_holds {thread : Thread count} {chan : Side} {target : Fin count}
    (howes : Owes thread chan target) : thread.holds ≠ none := by
  cases thread with
  | writeLoop | writeRoom | writeFull | writeEnd | closeWake => nofun
  | _ => exact howes.elim

end Runs

/-- The two ends exclude each other: at most one call is inside.  When nobody
is inside, a reader that sleeps has found the pipe empty and can still count on
the writers; and when both ends are closed the page was given back once. -/
structure Separate (machine : Machine count) : Prop where
  exclusive : Exclusive machine.threads
  woken : (∀ proc, (machine.threads proc).holds = none) →
    ∀ proc n nap, machine.threads proc = .readNap n nap →
      machine.shared.pipe.nread = machine.shared.pipe.nwrite ∧ machine.shared.pipe.writeopen = true
  once : machine.shared.freed ≤ 1
  freed : (∀ side, machine.shared.opened side = false) →
    (∀ proc, machine.threads proc = .idle) → machine.shared.freed = 1

theorem Ordered.separate {machine : Machine count}
    (hordered : Ordered machine) : Separate machine where
  exclusive := hordered.exclusive
  woken := by
    intro hout proc n nap hthread
    have hbound : (machine.threads proc).phase.bound = some .read := by
      rw [hthread]
      cases nap <;> rfl
    rcases hordered.waits.covered proc .read hbound with hreason | hpending
    · exact hreason
    · obtain ⟨waker, howes⟩ := hpending
      exact absurd (hout waker) (owes_holds howes)
  once := by
    rcases Nat.eq_zero_or_pos machine.shared.freed with hzero | hpos
    · omega
    · exact (hordered.closing.spent hpos).1.le
  freed := by
    intro hgone hidle
    have hnone : ∀ proc, (machine.threads proc).closes = none := by
      intro proc
      rw [hidle]
      rfl
    have hshut : ∀ side, machine.shared.pipe.isOpen side = false := by
      intro side
      by_contra hopen
      obtain ⟨closer, hcloser⟩ := hordered.closing.closing side (hgone side)
        (Bool.eq_true_of_not_eq_false hopen)
      rw [hnone] at hcloser
      cases hcloser
    have hpos : 0 < machine.shared.freed := by
      by_contra hzero
      obtain ⟨closer, hcloser⟩ := hordered.closing.freeing hshut (by omega)
      exact hcloser (hnone closer)
    exact (hordered.closing.spent hpos).1

/-- The two ends exclude each other in all states of a run exactly when every
call that took a mutex did so while no other call was inside. -/
theorem run_separate_iff {data : ℕ → UInt8} {last : Machine count}
    {record : List (Machine count × Action count)} (hrun : Run step (boot data) record last) :
    (Separate last ∧ ∀ entry ∈ record, Separate entry.1) ↔
      ∀ entry ∈ record, Admitted entry.1 entry.2 := by
  have hkeep : ∀ (machine : Machine count) (action : Action count) next,
      Ordered machine → Admitted machine action → step machine action = some next → Ordered next :=
    fun _ _ _ hordered hadmitted hstep => hordered.step hadmitted hstep
  refine hrun.holds_iff hkeep ?_ (ordered_boot data) (ordered_boot data).separate
  intro machine action next hordered _ hstep
  constructor
  · intro hseparate
    cases action with
    | proceed proc byte => exact fun henters => exclusive_enter hstep henters hseparate.exclusive
    | _ => trivial
  · exact fun hadmitted => (hordered.step hadmitted hstep).separate

instance (thread : Thread count) : Decidable (Enters thread) := by
  unfold Enters
  split <;> infer_instance

instance (machine : Machine count) (action : Action count) :
    Decidable (Admitted machine action) := by
  unfold Admitted
  split <;> infer_instance

instance (threads : Fin count → Thread count) : Decidable (Exclusive threads) := by
  unfold Exclusive
  infer_instance

/-- A reader waits, a writer wakes it, and both ends are closed. -/
def orderlyActions : List (Action 2) :=
  [[.read 0 1], List.replicate 6 (.proceed 0 0), [.write 1 1], List.replicate 7 (.proceed 1 5),
    List.replicate 7 (.proceed 0 0), [.close 0 .read], List.replicate 6 (.proceed 0 0),
    [.close 1 .write], List.replicate 6 (.proceed 1 0)].flatten

theorem run_separate_iff_orderly : ∃ record last, Run step (boot fun _ => 0) record last ∧
      record.map Prod.snd = orderlyActions ∧ (Separate last ∧ ∀ entry ∈ record, Separate entry.1) ∧
      last.shared.delivered = [5] ∧ last.shared.freed = 1 := by
  have hsome : ((orderlyActions.foldlM (guarded Admitted step) (boot fun _ => 0)).any fun last =>
      last.shared.delivered = [5] ∧ last.shared.freed = 1) = true := by decide +kernel
  obtain ⟨record, last, hrun, hactions, hadmitted, hend⟩ := Run.of_any_admitted hsome
  exact ⟨record, last, hrun, hactions, (run_separate_iff hrun).mpr hadmitted, hend⟩

/-- A reader finds the pipe empty, and a writer goes inside. -/
def meetingActions : List (Action 2) :=
  [.read 0 1, .proceed 0 0, .proceed 0 0, .write 1 1, .proceed 1 5]

/-- The writer is done before the reader sleeps. -/
def missedActions : List (Action 2) :=
  [List.replicate 6 (.proceed 1 5), List.replicate 4 (.proceed 0 0)].flatten

/-- Both ends are closed, and both calls of `close` find the other one done. -/
def twiceActions : List (Action 2) :=
  [[.close 0 .read, .close 1 .write], (List.replicate 5 [.proceed 0 0, .proceed 1 0]).flatten,
    [.proceed 0 0, .proceed 1 0]].flatten

/-- Two calls meet inside, a reader then sleeps for good with a byte in the
buffer, and the page of a pipe is given back twice. -/
theorem not_run_separate :
    (∃ record meeting, Run step (boot fun _ => 0) record meeting ∧
      record.map Prod.snd = meetingActions ∧ ¬Exclusive meeting.threads ∧
      ∃ rest last, Run step meeting rest last ∧ rest.map Prod.snd = missedActions ∧
        (∀ proc, (last.threads proc).holds = none) ∧ last.threads 0 = .readNap 1 .asleep ∧
        last.shared.pipe.nread < last.shared.pipe.nwrite) ∧
    ∃ record last, Run step (boot fun _ => 0) record last ∧
      record.map Prod.snd = twiceActions ∧ last.shared.freed = 2 := by
  have hmeet : ((meetingActions.foldlM step (boot fun _ => 0)).any
      fun meeting => ¬Exclusive meeting.threads ∧
        (missedActions.foldlM step meeting).any fun last =>
          (∀ proc, (last.threads proc).holds = none) ∧ last.threads 0 = .readNap 1 .asleep ∧
            last.shared.pipe.nread < last.shared.pipe.nwrite) = true := by decide +kernel
  have htwice : ((twiceActions.foldlM step (boot fun _ => 0)).any
      fun last => last.shared.freed = 2) = true := by decide +kernel
  constructor
  · obtain ⟨record, meeting, hrun, hactions, hinside, hlater⟩ := Run.of_any hmeet
    exact ⟨record, meeting, hrun, hactions, hinside, Run.of_any hlater⟩
  · exact Run.of_any htwice

end RxOs.PipeEnds
