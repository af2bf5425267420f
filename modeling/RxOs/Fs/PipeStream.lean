import RxOs.Fs.PipeMachine

/-!
# Pipes are byte streams

Readers exclude each other and so do writers, although the two sides do not.
That is enough for the bytes: what was delivered is the beginning of what was
accepted, and the buffer has the rest.
-/

namespace RxOs.PipeStream

open Function Transition RingBuffer WaitChannel PipeMachine

variable {count : ℕ}

/-- What holds of a thread at its place. -/
structure Local (shared : Shared count) (proc : Fin count)
    (thread : Thread count) : Prop where
  locks : ∀ side, thread.holds = some side → shared.lock side = some proc
  uses : ∀ side, thread.uses = some side → shared.opened side = true
  closes : ∀ side, thread.closes = some side → shared.opened side = false
  loop : ∀ n, thread = .readLoop n 0 →
    shared.pipe.nread ≠ shared.pipe.nwrite ∨ shared.pipe.writeopen = false
  zero : ∀ n rest, thread = .readEnd n 0 rest → 0 < n →
    shared.pipe.nread = shared.pipe.nwrite ∧ shared.pipe.writeopen = false

/-- What holds of the shared state. -/
structure Flowing (shared : Shared count) : Prop where
  bounded : Bounded pipeSize shared.pipe.toBuffer
  split : shared.accepted = shared.delivered ++ contents pipeSize shared.pipe.toBuffer
  shut : ∀ side, shared.pipe.isOpen side = false → shared.opened side = false

section Advance

variable {shared next : Shared count} {proc other : Fin count} {byte : UInt8}
variable {thread place : Thread count}

/-- A thread outside the sections of a mutex does not notice what happens to
it. -/
theorem Local.relock (hlocal : Local shared other thread) {side : Side}
    (hlock : shared.lock side ≠ some other) (value : Option (Fin count)) :
    Local { shared with lock := update shared.lock side value } other
      thread := by
  refine ⟨?_, hlocal.uses, hlocal.closes, hlocal.loop, hlocal.zero⟩
  intro held hholds
  have hheld := hlocal.locks held hholds
  have hne : held ≠ side := by
    rintro rfl
    exact hlock hheld
  exact (update_of_ne hne ..).trans hheld

theorem Local.enqueue (hlocal : Local shared other thread)
    (hflowing : Flowing shared) (hopen : shared.pipe.writeopen = true)
    (byte : UInt8) : Local (shared.enqueue byte) other thread := by
  refine ⟨hlocal.locks, hlocal.uses, hlocal.closes, ?_, ?_⟩
  · intro n _
    have hle := hflowing.bounded.le
    exact Or.inl (by change shared.pipe.nread ≠ shared.pipe.nwrite + 1; omega)
  · intro n rest hthread hpos
    have hclosed := (hlocal.zero n rest hthread hpos).2
    rw [hopen] at hclosed
    cases hclosed

theorem Local.dequeue (hlocal : Local shared other thread)
    (hlock : shared.lock .read ≠ some other) : Local shared.dequeue other thread := by
  have hout : thread.holds ≠ some .read := fun hholds => hlock (hlocal.locks .read hholds)
  refine ⟨hlocal.locks, hlocal.uses, hlocal.closes, ?_, ?_⟩
  · rintro n rfl
    exact absurd rfl hout
  · rintro n rest rfl
    exact absurd rfl hout

theorem Local.shut (hlocal : Local shared other thread) (side : Side) :
    Local { shared with pipe := shared.pipe.shut side } other thread := by
  cases side with
  | read => exact ⟨hlocal.locks, hlocal.uses, hlocal.closes, hlocal.loop, hlocal.zero⟩
  | write =>
    refine ⟨hlocal.locks, hlocal.uses, hlocal.closes, fun _ _ => Or.inr rfl, ?_⟩
    intro n rest hthread hpos
    exact ⟨(hlocal.zero n rest hthread hpos).1, rfl⟩

/-- A thread goes on within its call, or leaves it. -/
theorem Local.move (hlocal : Local shared proc thread) (hopened : next.opened = shared.opened)
    (hlocks : ∀ side, place.holds = some side → next.lock side = some proc)
    (huses : ∀ side, place.uses = some side → thread.uses = some side)
    (hcloses : ∀ side, place.closes = some side → thread.closes = some side)
    (hloop : ∀ n, place = .readLoop n 0 →
      next.pipe.nread ≠ next.pipe.nwrite ∨ next.pipe.writeopen = false)
    (hzero : ∀ n rest, place = .readEnd n 0 rest → 0 < n →
      next.pipe.nread = next.pipe.nwrite ∧ next.pipe.writeopen = false) :
    Local next proc place := by
  refine ⟨hlocks, ?_, ?_, hloop, hzero⟩
  · intro side hside
    rw [hopened]
    exact hlocal.uses side (huses side hside)
  · intro side hside
    rw [hopened]
    exact hlocal.closes side (hcloses side hside)

/-- A step of one thread keeps the stream and what holds of the others. -/
structure Kept (shared next : Shared count) (proc : Fin count)
    (place : Thread count) : Prop where
  flowing : Flowing next
  self : Local next proc place
  others : ∀ other thread, other ≠ proc → Local shared other thread → Local next other thread

theorem kept_move (hflowing : Flowing shared) (hlocal : Local shared proc thread)
    (hholds : ∀ side, place.holds = some side → thread.holds = some side)
    (huses : ∀ side, place.uses = some side → thread.uses = some side)
    (hcloses : ∀ side, place.closes = some side → thread.closes = some side)
    (hloop : ∀ n, place = .readLoop n 0 → shared.pipe.nread ≠
      shared.pipe.nwrite ∨ shared.pipe.writeopen = false)
    (hzero : ∀ n rest, place = .readEnd n 0 rest → 0 < n → shared.pipe.nread = shared.pipe.nwrite ∧
        shared.pipe.writeopen = false) : Kept shared shared proc place := by
  refine ⟨hflowing, ?_, fun _ _ _ hother => hother⟩
  exact hlocal.move rfl (fun side hside => hlocal.locks side (hholds side hside)) huses hcloses
    hloop hzero

/-- The thread takes the mutex of its end. -/
theorem kept_acquire (hflowing : Flowing shared)
    (hlocal : Local shared proc thread) {side : Side} {result : Thread count}
    (hacquire : shared.acquire side proc place = some (next, result))
    (hholds : place.holds = some side)
    (huses : place.uses = thread.uses) (hcloses : place.closes = thread.closes)
    (hloop : ∀ n i, place ≠ .readLoop n i) (hend : ∀ n i rest, place ≠ .readEnd n i rest) :
    Kept shared next proc result := by
  obtain ⟨hfree, rfl, rfl⟩ := acquire_eq hacquire
  refine ⟨⟨hflowing.bounded, hflowing.split, hflowing.shut⟩, ?_, ?_⟩
  · refine hlocal.move rfl ?_ (fun _ => huses ▸ id) (fun _ => hcloses ▸ id)
      (fun n hplace => absurd hplace (hloop n 0))
      (fun n rest hplace => absurd hplace (hend n 0 rest))
    intro held hheld
    rw [hholds] at hheld
    cases hheld
    exact update_self ..
  · intro other thread _ hother
    exact hother.relock (by rw [hfree]; nofun) _

/-- The thread drops the mutex of its end. -/
theorem kept_release (hflowing : Flowing shared) (hlocal : Local shared proc thread) {side : Side}
    (hheld : thread.holds = some side) (hholds : place.holds = none)
    (huses : ∀ side, place.uses = some side → thread.uses = some side)
    (hcloses : place.closes = none) : Kept shared (shared.release side) proc place := by
  refine ⟨⟨hflowing.bounded, hflowing.split, hflowing.shut⟩, ?_, ?_⟩
  · refine hlocal.move rfl ?_ huses ?_ ?_ ?_
    · intro side hside
      rw [hholds] at hside
      cases hside
    · intro side hside
      rw [hcloses] at hside
      cases hside
    · rintro n rfl
      cases hholds
    · rintro n rest rfl
      cases hholds
  · intro other thread hne hother
    refine hother.relock ?_ none
    rw [hlocal.locks side hheld]
    exact fun hsame => hne (Option.some.inj hsame).symm

theorem kept_enqueue (hflowing : Flowing shared) {n i : ℕ}
    (hlocal : Local shared proc (.writeRoom n i))
    (hroom : shared.pipe.nwrite ≠ shared.pipe.nread + pipeSize) (byte : UInt8) :
    Kept shared (shared.enqueue byte) proc (.writeLoop n (i + 1)) := by
  have hopen : shared.pipe.writeopen = true := by
    by_contra hclosed
    have hfile := hflowing.shut .write (Bool.eq_false_iff.mpr hclosed)
    rw [hlocal.uses .write rfl] at hfile
    cases hfile
  refine ⟨⟨hflowing.bounded.push hroom byte, ?_, hflowing.shut⟩, ?_, ?_⟩
  · change shared.accepted ++ [byte] = shared.delivered ++ contents pipeSize
      (push pipeSize byte shared.pipe.toBuffer)
    rw [contents_push hflowing.bounded hroom, hflowing.split, List.append_assoc]
  · exact hlocal.move rfl hlocal.locks (fun _ => id) (fun _ => id) nofun nofun
  · intro other thread _ hother
    exact hother.enqueue hflowing hopen byte

theorem kept_dequeue (hflowing : Flowing shared) {n i : ℕ}
    (hlocal : Local shared proc (.readLoop n i)) (hsome : shared.pipe.nread ≠ shared.pipe.nwrite) :
    Kept shared shared.dequeue proc (.readLoop n (i + 1)) := by
  refine ⟨⟨hflowing.bounded.pop hsome, ?_, hflowing.shut⟩, ?_, ?_⟩
  · change shared.accepted = shared.delivered ++
      [shared.pipe.data (shared.pipe.nread % pipeSize)] ++ contents pipeSize
        (pop shared.pipe.toBuffer)
    rw [hflowing.split, contents_pop hflowing.bounded hsome,
      List.append_assoc, List.singleton_append]
  · exact hlocal.move rfl hlocal.locks (fun _ => id) (fun _ => id) nofun nofun
  · intro other thread hne hother
    refine hother.dequeue ?_
    rw [hlocal.locks .read rfl]
    exact fun hsame => hne (Option.some.inj hsame).symm

theorem kept_shut (hflowing : Flowing shared) {side : Side}
    (hlocal : Local shared proc (.closeMark side)) (rest : List (Fin count)) :
    Kept shared { shared with pipe := shared.pipe.shut side } proc (.closeWake side rest) := by
  have hself : Local { shared with pipe := shared.pipe.shut side } proc
      (.closeMark side) := hlocal.shut side
  refine ⟨?_, ?_, fun other thread _ hother => hother.shut side⟩
  · have hfile := hlocal.closes side rfl
    cases side with
    | read | write =>
      refine ⟨hflowing.bounded, hflowing.split, ?_⟩
      intro side hside
      cases side
      all_goals first | exact hfile | exact hflowing.shut _ hside
  · exact hself.move rfl hself.locks (fun _ => id) (fun _ => id) nofun nofun

/-- Every step of a call outside the loops of `wake_up`. -/
theorem kept_advance (hflowing : Flowing shared) (hlocal : Local shared proc thread)
    (hadvance : advance shared proc byte thread = some (next, place)) :
    Kept shared next proc place := by
  cases thread with
  | idle => cases hadvance
  | writeLoop n i =>
    simp only [advance] at hadvance
    split_ifs at hadvance with hdone hkilled
    · cases hadvance
      exact kept_move hflowing hlocal (fun _ => id) (fun _ => id) (fun _ => id) nofun nofun
    · cases hadvance
      exact kept_release hflowing hlocal rfl rfl nofun rfl
    · cases hadvance
      exact kept_move hflowing hlocal (fun _ => id) (fun _ => id) (fun _ => id) nofun nofun
  | writeRoom n i =>
    simp only [advance] at hadvance
    split_ifs at hadvance with hlimit hfull
    · cases hadvance
      exact kept_move hflowing hlocal (fun _ => id) (fun _ => id) (fun _ => id) nofun nofun
    · cases hadvance
      exact kept_enqueue hflowing hlocal hfull byte
  | writeFull n i rest =>
    cases hadvance
    exact kept_move hflowing hlocal (fun _ => id) (fun _ => id) (fun _ => id) nofun nofun
  | writeNap n i nap | readNap n nap =>
    cases nap with
    | locked =>
      cases hadvance
      exact kept_release hflowing hlocal rfl rfl (fun _ => id) rfl
    | falling =>
      cases hadvance
      exact kept_move hflowing hlocal nofun (fun _ => id) nofun nofun nofun
    | asleep => cases hadvance
  | writeEnd | readEnd =>
    cases hadvance
    exact kept_release hflowing hlocal rfl rfl nofun rfl
  | readTest n =>
    simp only [advance] at hadvance
    split_ifs at hadvance with hempty
    · cases hadvance
      exact kept_move hflowing hlocal (fun _ => id) (fun _ => id) nofun nofun
        nofun
    · cases hadvance
      exact kept_move hflowing hlocal (fun _ => id) (fun _ => id) nofun
        (fun _ _ => Or.inl hempty) nofun
  | readOpen n =>
    simp only [advance] at hadvance
    split_ifs at hadvance with hopen
    · cases hadvance
      exact kept_move hflowing hlocal (fun _ => id) (fun _ => id) nofun nofun
        nofun
    · cases hadvance
      exact kept_move hflowing hlocal (fun _ => id) (fun _ => id) nofun
        (fun _ _ => Or.inr (Bool.eq_false_iff.mpr hopen)) nofun
  | readKilled n =>
    simp only [advance] at hadvance
    split_ifs at hadvance with hkilled
    · cases hadvance
      exact kept_release hflowing hlocal rfl rfl nofun rfl
    · cases hadvance
      exact kept_move hflowing hlocal (fun _ => id) (fun _ => id) nofun nofun
        nofun
  | readLoop n i =>
    simp only [advance] at hadvance
    split_ifs at hadvance with hdone
    · cases hadvance
      refine kept_move hflowing hlocal (fun _ => id) (fun _ => id) nofun
        nofun ?_
      intro length rest hplace hpos
      obtain ⟨rfl, rfl, -⟩ := Thread.readEnd.inj hplace
      have hempty := hdone.resolve_left (by omega)
      have hclosed := (hlocal.loop n rfl).resolve_left (not_not_intro hempty)
      exact ⟨hempty, hclosed⟩
    · cases hadvance
      exact kept_dequeue hflowing hlocal (fun hsame => hdone (Or.inr hsame))
  | closeMark side =>
    cases hadvance
    exact kept_shut hflowing hlocal _
  | closeWake side rest =>
    cases hadvance
    exact kept_move hflowing hlocal (fun _ => id) nofun (fun _ => id) nofun
      nofun
  | closeTest side =>
    simp only [advance] at hadvance
    split_ifs at hadvance with hboth
    · cases hadvance
      refine ⟨⟨hflowing.bounded, hflowing.split, hflowing.shut⟩, ?_, ?_⟩
      · exact hlocal.move rfl nofun nofun nofun nofun nofun
      · intro other thread _ hother
        exact ⟨hother.locks, hother.uses, hother.closes, hother.loop, hother.zero⟩
    · cases hadvance
      exact kept_release hflowing hlocal rfl rfl nofun rfl
  | _ => exact kept_acquire hflowing hlocal hadvance rfl rfl rfl nofun nofun

/-- A thread in a loop of `wake_up` goes on to the next process. -/
theorem Local.waking (hlocal : Local shared proc thread) {chan : Side}
    {target : Fin count} (hwaking : thread.waking = some (chan, target, place)) :
    Local shared proc place := by
  rw [Thread.waking.eq_def] at hwaking
  split at hwaking <;> cases hwaking
  case h_3 =>
    refine ⟨hlocal.locks, hlocal.uses, hlocal.closes, nofun, ?_⟩
    intro length list hplace hpos
    obtain ⟨rfl, rfl, -⟩ := Thread.readEnd.inj hplace
    exact hlocal.zero _ _ rfl hpos
  all_goals exact ⟨hlocal.locks, hlocal.uses, hlocal.closes, nofun, nofun⟩

theorem Local.wake (hlocal : Local shared proc thread) {chan : Side}
    (hasleep : thread.phase = .asleep chan) : Local shared proc thread.wake := by
  cases thread with
  | writeNap | readNap => exact ⟨nofun, hlocal.uses, nofun, nofun, nofun⟩
  | _ => cases hasleep

end Advance

/-! ## Runs -/

/-- The stream flows, and every thread is where it may be. -/
structure Invariant (machine : Machine count) : Prop where
  flowing : Flowing machine.shared
  locals : ∀ proc, Local machine.shared proc (machine.threads proc)

theorem invariant_boot (data : ℕ → UInt8) :
    Invariant (boot data : Machine count) where
  flowing := ⟨⟨Nat.le_refl 0, Nat.zero_le _⟩, rfl, fun side hside => by cases side <;> cases hside⟩
  locals := fun _ => ⟨nofun, nofun, nofun, nofun, nofun⟩

section Runs

variable {machine next : Machine count} {proc : Fin count} {byte : UInt8}

theorem Invariant.proceed (hinvariant : Invariant machine)
    (hstep : proceed machine proc byte = some next) : Invariant next := by
  obtain ⟨hflowing, hlocals⟩ := hinvariant
  rcases proceed_cases hstep with
    ⟨chan, target, place, threads, hwaking, hvisit, rfl⟩ |
    ⟨shared, place, -, hadvance, rfl⟩
  · have hthreads : ∀ other, Local machine.shared other (threads other) := by
      rcases hvisit with ⟨-, rfl⟩ | hvisit
      · exact hlocals
      · exact visit_forall hlocals (fun _ _ hasleep hlocal => hlocal.wake hasleep) hvisit
    refine ⟨hflowing, ?_⟩
    exact (forall_update_iff _ _).mpr ⟨(hlocals proc).waking hwaking, fun other _ => hthreads other⟩
  · have hkept := kept_advance hflowing (hlocals proc) hadvance
    refine ⟨hkept.flowing, ?_⟩
    exact (forall_update_iff _ _).mpr ⟨hkept.self, fun other hother =>
      hkept.others other _ hother (hlocals other)⟩

theorem Invariant.step {action : Action count} (hinvariant : Invariant machine)
    (hstep : step machine action = some next) : Invariant next := by
  obtain ⟨hflowing, hlocals⟩ := hinvariant
  cases action with
  | close proc side =>
    rw [PipeMachine.step] at hstep
    split at hstep
    · next hcall =>
        cases hstep
        have hfile : ∀ other, machine.shared.opened other = false →
            update machine.shared.opened side false other = false := by
          intro other hother
          by_cases hsame : other = side
          · rw [hsame, update_self]
          · rw [update_of_ne hsame, hother]
        refine ⟨⟨hflowing.bounded, hflowing.split, fun other hother =>
          hfile other (hflowing.shut other hother)⟩,
          (forall_update_iff _ _).mpr ⟨?_, fun other _ => ?_⟩⟩
        · refine ⟨nofun, nofun, ?_, nofun, nofun⟩
          intro other hother
          cases hother
          exact update_self ..
        · have hlocal := hlocals other
          refine ⟨hlocal.locks, ?_, fun side hside =>
            hfile side (hlocal.closes side hside), hlocal.loop, hlocal.zero⟩
          intro used hused
          have hne : used ≠ side := by
            rintro rfl
            exact hcall.2.2 other hused
          exact (update_of_ne hne ..).trans (hlocal.uses used hused)
    · cases hstep
  | kill proc =>
    have hkill : ∀ killed other thread, Local machine.shared other thread →
        Local { machine.shared with killed := killed } other thread := by
      intro killed other thread hlocal
      exact ⟨hlocal.locks, hlocal.uses, hlocal.closes, hlocal.loop, hlocal.zero⟩
    simp only [PipeMachine.step] at hstep
    split at hstep
    · cases hstep
    · cases hstep
      exact ⟨⟨hflowing.bounded, hflowing.split, hflowing.shut⟩,
        fun other => hkill _ other _ (hlocals other)⟩
    · next hasleep =>
        cases hstep
        refine ⟨⟨hflowing.bounded, hflowing.split, hflowing.shut⟩,
          (forall_update_iff _ _).mpr ⟨?_, fun other _ => ?_⟩⟩
        · exact hkill _ proc _ ((hlocals proc).wake hasleep)
        · exact hkill _ other _ (hlocals other)
  | proceed proc byte => exact Invariant.proceed ⟨hflowing, hlocals⟩ hstep
  | _ =>
    rw [PipeMachine.step] at hstep
    split at hstep
    · next hcall =>
        cases hstep
        refine ⟨hflowing, (forall_update_iff _ _).mpr ⟨?_, fun other _ => hlocals other⟩⟩
        refine ⟨nofun, ?_, nofun, nofun, nofun⟩
        intro side hside
        cases hside
        exact hcall.2
    · cases hstep

end Runs

/-- A pipe is a byte stream: at most `PIPESIZE` bytes are in the buffer, they
are what was accepted and not delivered yet, and a read that delivers nothing
found the buffer empty and the other end closed. -/
structure Fifo (machine : Machine count) : Prop where
  le : machine.shared.pipe.nread ≤ machine.shared.pipe.nwrite
  room : machine.shared.pipe.nwrite ≤ machine.shared.pipe.nread + pipeSize
  split : machine.shared.accepted = machine.shared.delivered ++
    contents pipeSize machine.shared.pipe.toBuffer
  zero : ∀ proc n rest, machine.threads proc = .readEnd n 0 rest → 0 < n →
    machine.shared.pipe.nread = machine.shared.pipe.nwrite ∧ machine.shared.pipe.writeopen = false

theorem Invariant.fifo {machine : Machine count}
    (hinvariant : Invariant machine) : Fifo machine where
  le := hinvariant.flowing.bounded.le
  room := hinvariant.flowing.bounded.room
  split := hinvariant.flowing.split
  zero := fun proc n rest hthread => (hinvariant.locals proc).zero n rest hthread

/-- A pipe is a byte stream in all states of all runs. -/
theorem run_fifo {data : ℕ → UInt8} {last : Machine count}
    {record : List (Machine count × Action count)} (hrun : Run step (boot data) record last) :
    Fifo last ∧ ∀ entry ∈ record, Fifo entry.1 := by
  obtain ⟨hlast, hstates⟩ := hrun.always
    (fun _ _ _ hinvariant hstep => hinvariant.step hstep) (invariant_boot data)
  exact ⟨hlast.fifo, fun entry hentry => (hstates entry hentry).fifo⟩

/-- A reader that takes two of the three bytes a writer puts in. -/
def sampleActions : List (Action 2) :=
  [[.write 0 3, .read 1 2, .proceed 0 0, .proceed 0 0, .proceed 0 7, .proceed 1 0, .proceed 0 0,
      .proceed 0 8, .proceed 1 0, .proceed 1 0, .proceed 0 0, .proceed 0 9, .proceed 1 0],
    List.replicate 4 (.proceed 1 0), List.replicate 4 (.proceed 0 0)].flatten

theorem run_fifo_sample : ∃ record last, Run step (boot fun _ => 0) record last ∧
      record.map Prod.snd = sampleActions ∧ Fifo last ∧
      last.shared.accepted = [7, 8, 9] ∧ last.shared.delivered = [7, 8] := by
  have hsome : ((sampleActions.foldlM step (boot fun _ => 0)).any fun last =>
      last.shared.accepted = [7, 8, 9] ∧ last.shared.delivered = [7, 8]) = true := by decide +kernel
  obtain ⟨record, last, hrun, hactions, hbytes⟩ := Run.of_any hsome
  exact ⟨record, last, hrun, hactions, (run_fifo hrun).1, hbytes⟩

end RxOs.PipeStream
