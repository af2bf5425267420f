import RxOs.Fs.PipeMachine

/-!
# Writing to a pipe that nobody reads

A writer whose readers are gone, or that was killed, is to give up at the head
of its loop.  `Pipe::write` gives up if both is the case; and as the two ends
have a mutex each, a close may also come after the test, before the byte is put
in, before the `sleep` or before the return.
-/

namespace RxOs.PipeWriter

open Function Transition WaitChannel PipeMachine

variable {count : ℕ} {machine next : Machine count} {action : Action count}
variable {thread : Thread count} {proc : Fin count} {byte : UInt8}

def full (pipe : PipeInner) : Bool :=
  pipe.nwrite = pipe.nread + pipeSize

/-- What is asked of a step of a writer: the property itself. -/
structure Proper (machine : Machine count) (proc : Fin count) (next : Machine count) : Prop where
  /-- With the read end closed no byte is put in. -/
  enqueues : next.shared.pipe.nwrite ≠ machine.shared.pipe.nwrite →
    machine.shared.pipe.readopen = true
  /-- Nobody falls asleep with the read end closed, or when killed. -/
  sleeps : ∀ n i, machine.threads proc = .writeNap n i .falling →
    machine.shared.pipe.readopen = true ∧ machine.shared.killed proc = false
  /-- With the read end closed the call does not return `Ok`. -/
  returns : ∀ n, machine.threads proc = .writeEnd n [] → 0 < n →
    machine.shared.pipe.readopen = true
  /-- With the read end closed a turn of the loop returns `Err`. -/
  refuses : ∀ n i, machine.threads proc = .writeLoop n i → i < n →
    machine.shared.pipe.readopen = false →
      next = ⟨machine.shared.release .write, update machine.threads proc .idle⟩

/-- On the way to `sleep`, which a writer that finds the buffer full takes. -/
def retiring : Thread count → Bool
  | .writeFull .. | .writeNap _ _ .locked | .writeNap _ _ .falling => true
  | _ => false

/-- Past the test: a close of the read end is not noticed any more before the
writer puts a byte in, sleeps or returns. -/
def committed : Thread count → Bool
  | .writeRoom .. => true
  -- all bytes are in
  | .writeEnter n i | .writeLoop n i | .writeNap n i .asleep => 0 < n ∧ n ≤ i
  | .writeEnd n _ => 0 < n
  | thread => retiring thread

/-- A writer that finds the read end closed was killed, and one that finds the
buffer full was not.  The read end is not closed while a writer is past its
test, and no writer is killed while it wakes the readers to go to sleep. -/
def heeded (machine : Machine count) : Action count → Bool
  | .proceed proc _ =>
    match machine.threads proc with
    | .writeLoop n i =>
      i < n → machine.shared.pipe.readopen = false → machine.shared.killed proc = true
    | .writeRoom _ _ => full machine.shared.pipe = true → machine.shared.killed proc = false
    | .closeMark .read => ∀ other, committed (machine.threads other) = false
    | _ => true
  | .kill proc => retiring (machine.threads proc) = false
  | _ => true

/-- The read end is open for the writers that are past their test, and those on
the way to `sleep` were not killed. -/
structure Settled (machine : Machine count) : Prop where
  ended : ∀ proc, committed (machine.threads proc) = true →
    machine.shared.pipe.readopen = true
  spared : ∀ proc, retiring (machine.threads proc) = true → machine.shared.killed proc = false

/-! ## Steps -/

theorem committed_of_retiring (hretiring : retiring thread = true) : committed thread = true := by
  cases thread with
  | writeFull => rfl
  | writeNap n i nap =>
    cases nap with
    | locked | falling => rfl
    | asleep => cases hretiring
  | _ => cases hretiring

theorem committed_wake : committed thread.wake = true → committed thread = true := by
  cases thread with
  | writeNap n i nap =>
    cases nap with
    | locked | falling => exact fun _ => rfl
    | asleep => exact id
  | readNap => nofun
  | _ => exact id

theorem retiring_wake : retiring thread.wake = true → retiring thread = true := by
  cases thread with
  | writeNap | readNap => nofun
  | _ => exact id

theorem committed_waking {chan : Side} {target : Fin count} {place : Thread count}
    (hwaking : thread.waking = some (chan, target, place)) :
    committed place = committed thread ∧ retiring place = retiring thread := by
  rw [Thread.waking.eq_def] at hwaking
  split at hwaking <;> cases hwaking <;> exact ⟨rfl, rfl⟩

/-- A thread goes on to a place where no more is asked of the flags. -/
def Eases (thread place : Thread count) : Prop :=
  (committed place = true → committed thread = true) ∧
    (retiring place = true → retiring thread = true)

theorem Settled.mono (hsettled : Settled machine) {threads : Fin count → Thread count}
    (heases : ∀ other, Eases (machine.threads other) (threads other)) :
    Settled { machine with threads := threads } :=
  ⟨fun other hcommitted => hsettled.ended other ((heases other).1 hcommitted),
    fun other hretiring => hsettled.spared other ((heases other).2 hretiring)⟩

theorem Settled.mono_update (hsettled : Settled machine) {place : Thread count}
    (heases : Eases (machine.threads proc) place) :
    Settled { machine with threads := update machine.threads proc place } :=
  hsettled.mono ((forall_update_iff _ fun other => Eases (machine.threads other)).mpr
    ⟨heases, fun _ _ => ⟨id, id⟩⟩)

/-- A step of one thread that leaves the flags alone. -/
theorem Settled.move (hsettled : Settled machine) {shared : Shared count} {place : Thread count}
    (hopen : shared.pipe.readopen = machine.shared.pipe.readopen)
    (hkilled : shared.killed = machine.shared.killed)
    (hcommitted : committed place = true → machine.shared.pipe.readopen = true)
    (hretiring : retiring place = true → machine.shared.killed proc = false) :
    Settled ⟨shared, update machine.threads proc place⟩ := by
  refine ⟨(forall_update_iff _ fun _ thread => committed thread = true → _).mpr ⟨?_, ?_⟩,
    (forall_update_iff _ fun other thread => retiring thread = true → _).mpr ⟨?_, ?_⟩⟩
  · rwa [hopen]
  · intro other _
    rw [hopen]
    exact hsettled.ended other
  · rwa [hkilled]
  · intro other _
    rw [hkilled]
    exact hsettled.spared other

theorem Settled.advance (hsettled : Settled machine)
    (hheeded : heeded machine (.proceed proc byte) = true) {shared : Shared count}
    {place : Thread count}
    (hadvance : advance machine.shared proc byte (machine.threads proc) = some (shared, place)) :
    Settled ⟨shared, update machine.threads proc place⟩ := by
  have hended := hsettled.ended proc
  have hspared := hsettled.spared proc
  rw [heeded] at hheeded
  generalize hthread : machine.threads proc = thread at hended hspared hheeded hadvance
  cases thread with
  | idle => cases hadvance
  | writeLoop n i =>
    simp only [PipeMachine.advance] at hadvance
    split_ifs at hadvance with hdone hboth
    · cases hadvance
      refine hsettled.move rfl rfl (fun hpos => hended ?_) nofun
      exact decide_eq_true ⟨of_decide_eq_true hpos, hdone⟩
    · cases hadvance
      exact hsettled.move rfl rfl nofun nofun
    · cases hadvance
      refine hsettled.move rfl rfl (fun _ => ?_) nofun
      by_contra hclosed
      have hshut := Bool.eq_false_iff.mpr hclosed
      exact hboth ⟨hshut, of_decide_eq_true hheeded (Nat.not_le.mp hdone) hshut⟩
  | writeRoom n i =>
    simp only [PipeMachine.advance] at hadvance
    split_ifs at hadvance with hlimit hfull
    · cases hadvance
      exact hsettled.move rfl rfl (fun _ => hended rfl)
        fun _ => of_decide_eq_true hheeded (decide_eq_true hfull)
    · cases hadvance
      exact hsettled.move rfl rfl (fun _ => hended rfl) nofun
  | writeFull n i rest =>
    cases hadvance
    exact hsettled.move rfl rfl (fun _ => hended rfl) fun _ => hspared rfl
  | writeNap n i nap =>
    cases nap with
    | locked =>
      cases hadvance
      exact hsettled.move rfl rfl (fun _ => hended rfl) fun _ => hspared rfl
    | falling =>
      cases hadvance
      exact hsettled.move rfl rfl (fun _ => hended rfl) nofun
    | asleep => cases hadvance
  | closeMark side =>
    cases hadvance
    cases side with
    | read =>
      have hnone := of_decide_eq_true hheeded
      have hsame : ∀ other, committed (update machine.threads proc
          (.closeWake .read (List.finRange count)) other) = true → False := by
        refine (forall_update_iff _ fun _ thread => committed thread = true → False).mpr
          ⟨nofun, fun other _ hother => ?_⟩
        rw [hnone other] at hother
        cases hother
      exact ⟨fun other hother => (hsame other hother).elim,
        fun other hother => (hsame other (committed_of_retiring hother)).elim⟩
    | write => exact hsettled.move rfl rfl nofun nofun
  | readTest n | readOpen n | readKilled n | readLoop n i | closeTest side =>
    simp only [PipeMachine.advance] at hadvance
    split_ifs at hadvance <;> cases hadvance <;> exact hsettled.move rfl rfl nofun nofun
  | readNap n nap =>
    cases nap with
    | locked | falling =>
      cases hadvance
      exact hsettled.move rfl rfl nofun nofun
    | asleep => cases hadvance
  | writeEnd | readEnd | closeWake =>
    cases hadvance
    exact hsettled.move rfl rfl nofun nofun
  | writeEnter n i =>
    obtain ⟨-, rfl, rfl⟩ := acquire_eq hadvance
    exact hsettled.move rfl rfl hended nofun
  | readEnter | closeEnter =>
    obtain ⟨-, rfl, rfl⟩ := acquire_eq hadvance
    exact hsettled.move rfl rfl nofun nofun

/-- The invariant is kept by every heeded step. -/
theorem settled_step (hsettled : Settled machine) (hheeded : heeded machine action = true)
    (hstep : step machine action = some next) : Settled next := by
  cases action with
  | proceed proc byte =>
    rcases proceed_cases hstep with
      ⟨chan, target, place, threads, hwaking, hvisit, rfl⟩ | ⟨shared, place, -, hadvance, rfl⟩
    · have hthreads : ∀ other, Eases (machine.threads other) (threads other) := by
        rcases hvisit with ⟨-, rfl⟩ | hvisit
        · exact fun _ => ⟨id, id⟩
        · exact visit_forall (fun _ => ⟨id, id⟩) (fun _ _ _ heases =>
            ⟨fun hplace => heases.1 (committed_wake hplace),
              fun hplace => heases.2 (retiring_wake hplace)⟩) hvisit
      obtain ⟨hcommitted, hretiring⟩ := committed_waking hwaking
      refine hsettled.mono ((forall_update_iff _ fun other => Eases (machine.threads other)).mpr
        ⟨?_, fun other _ => hthreads other⟩)
      rw [Eases, hcommitted, hretiring]
      exact ⟨id, id⟩
    · exact hsettled.advance hheeded hadvance
  | kill proc =>
    have hspared : ∀ other, retiring (machine.threads other) = true →
        update machine.shared.killed proc true other = false := by
      intro other hother
      have hne : other ≠ proc := by
        rintro rfl
        cases hother.symm.trans (of_decide_eq_true hheeded)
      rw [update_of_ne hne, hsettled.spared other hother]
    have hkilled : Settled { machine with shared := { machine.shared with
        killed := update machine.shared.killed proc true } } := ⟨hsettled.ended, hspared⟩
    simp only [step] at hstep
    split at hstep
    · cases hstep
    · cases hstep
      exact hkilled
    · cases hstep
      exact hkilled.mono_update ⟨committed_wake, retiring_wake⟩
  | close proc side =>
    obtain ⟨-, ⟨⟩⟩ := Option.ite_none_right_eq_some.mp hstep
    exact hsettled.move rfl rfl nofun nofun
  | read proc n =>
    obtain ⟨-, ⟨⟩⟩ := Option.ite_none_right_eq_some.mp hstep
    exact hsettled.mono_update ⟨nofun, nofun⟩
  | write proc n =>
    obtain ⟨-, ⟨⟩⟩ := Option.ite_none_right_eq_some.mp hstep
    refine hsettled.mono_update ⟨fun hcommitted => ?_, nofun⟩
    obtain ⟨hpos, hzero⟩ := of_decide_eq_true hcommitted
    omega

/-- Only a writer past its test puts a byte in. -/
theorem nwrite_eq (hstep : step machine (.proceed proc byte) = some next) :
    next.shared.pipe.nwrite = machine.shared.pipe.nwrite ∨
      ∃ n i, machine.threads proc = .writeRoom n i := by
  rcases proceed_cases hstep with ⟨_, _, _, _, -, -, rfl⟩ | ⟨shared, place, -, hadvance, rfl⟩
  · exact Or.inl rfl
  · rcases advance_pipe hadvance with hpipe | ⟨n, i, hthread, -, -⟩ | ⟨_, _, -, -, -, rfl⟩ |
      ⟨side, -, -, rfl⟩
    · exact Or.inl (congrArg (fun pipe => pipe.nwrite) hpipe)
    · exact Or.inr ⟨n, i, hthread⟩
    · exact Or.inl rfl
    · cases side <;> exact Or.inl rfl

/-- A writer of a settled pipe is proper in each heeded step. -/
theorem Settled.proper (hsettled : Settled machine)
    (hheeded : heeded machine (.proceed proc byte) = true)
    (hstep : step machine (.proceed proc byte) = some next) : Proper machine proc next := by
  have hended := hsettled.ended proc
  have hspared := hsettled.spared proc
  constructor
  · intro hnwrite
    obtain ⟨n, i, hthread⟩ := (nwrite_eq hstep).resolve_left hnwrite
    exact hended (by rw [hthread]; rfl)
  · intro n i hthread
    rw [hthread] at hended hspared
    exact ⟨hended rfl, hspared rfl⟩
  · intro n hthread hpos
    exact hended (by rw [hthread]; exact decide_eq_true hpos)
  · intro n i hthread hi hclosed
    rw [heeded, hthread] at hheeded
    have hkilled := of_decide_eq_true hheeded hi hclosed
    rcases proceed_cases hstep with ⟨_, _, _, _, hwaking, -⟩ | ⟨shared, place, -, hadvance, rfl⟩
    · rw [hthread] at hwaking
      cases hwaking
    · rw [hthread, PipeMachine.advance, if_neg (Nat.not_le.mpr hi), if_pos ⟨hclosed, hkilled⟩] at hadvance
      cases hadvance
      rfl

/-- In every run of heeded steps, from any state of the pipe in which no writer
is past its test, each step of a writer is proper. -/
theorem run_proper {first last : Machine count} {record : List (Machine count × Action count)}
    (hfirst : ∀ proc, committed (first.threads proc) = false) (hrun : Run step first record last)
    (hheeded : ∀ entry ∈ record, heeded entry.1 entry.2 = true) :
    ∀ entry ∈ record, ∀ proc byte next, entry.2 = .proceed proc byte →
      step entry.1 entry.2 = some next → Proper entry.1 proc next := by
  have hstart : Settled first := by
    refine ⟨fun proc hcommitted => ?_, fun proc hretiring => ?_⟩
    · cases (hfirst proc).symm.trans hcommitted
    · cases (hfirst proc).symm.trans (committed_of_retiring hretiring)
  have hkeep : ∀ (machine : Machine count) action next, Settled machine →
      heeded machine action = true → step machine action = some next → Settled next :=
    fun _ _ _ => settled_step
  have hsettled := (hrun.invariant hkeep hstart hheeded).2
  rintro ⟨machine, action⟩ hentry proc byte next rfl hstep
  exact (hsettled _ hentry).proper (hheeded _ hentry) hstep

def closedActions : List (Action 2) :=
  [.close 1 .read, .proceed 1 0, .proceed 1 0, .write 0 1, .proceed 0 0, .proceed 0 0]

def killedActions : List (Action 2) :=
  .kill 0 :: closedActions

theorem run_proper_killed : ∃ record last, Run step (boot fun _ => 0) record last ∧
      record.map Prod.snd = killedActions ∧ last.threads 0 = .idle ∧
      ∀ entry ∈ record, ∀ proc byte next, entry.2 = .proceed proc byte →
        step entry.1 entry.2 = some next → Proper entry.1 proc next := by
  have hsome : (killedActions.foldlM (guarded (fun state action => heeded state action = true) step)
      (boot fun _ => 0)).any (fun last => last.threads 0 = .idle) = true := by decide +kernel
  obtain ⟨record, last, hrun, hactions, hheeded, hlast⟩ := Run.of_any_admitted hsome
  exact ⟨record, last, hrun, hactions, hlast, run_proper (fun _ => rfl) hrun hheeded⟩

/-- A writer that was not killed puts its byte into a pipe nobody reads. -/
theorem not_run_proper :
    ¬∀ (last : Machine 2) (record : List (Machine 2 × Action 2)),
      Run step (boot fun _ => 0) record last → ∀ entry ∈ record, ∀ proc byte next,
        entry.2 = .proceed proc byte → step entry.1 entry.2 = some next →
          Proper entry.1 proc next := by
  intro hall
  have hwrites : (closedActions.foldlM step (boot fun _ => 0)).any (fun last =>
      last.shared.pipe.readopen = false ∧ last.shared.pipe.nwrite = 0 ∧
        (step last (.proceed 0 7)).any fun next => next.shared.pipe.nwrite = 1) = true := by
    decide +kernel
  obtain ⟨record, last, hrun, -, hclosed, hbefore, hany⟩ := Run.of_any hwrites
  obtain ⟨next, hstep, hafter⟩ := (Option.any_eq_true _ _).mp hany
  have hproper := hall _ _ (hrun.concat hstep) (last, .proceed 0 7) (by simp) 0 7 next rfl hstep
  have hopen := hproper.enqueues (by rw [of_decide_eq_true hafter, hbefore]; decide)
  cases hclosed.symm.trans hopen

end RxOs.PipeWriter
