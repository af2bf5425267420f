import RxOs.Core.RingBuffer
import RxOs.Core.Transition
import RxOs.Core.WaitChannel

/-!
# Pipes

A pipe as `Pipe::alloc` makes it, and any number of processes that read, write
and close its two ends.  The two files have a mutex each, although they share
one `PipeInner`, so the other end may be closed between a test and what follows
it.  A byte is put in or taken out in one step; the wait channels and the loops
of `wake_up` are taken step by step.
-/

namespace RxOs.PipeMachine

open Function Transition RingBuffer WaitChannel

def pipeSize : ℕ := 512

/-- The counters of the pipe are of type `usize`. -/
def usizeLimit : ℕ := 2 ^ 64

/-- The two ends.  The reading side of a pipe sleeps on the address of `nread`,
the writing side on that of `nwrite`. -/
inductive Side
  | read
  | write
  deriving DecidableEq, Repr

def Side.other : Side → Side
  | .read => .write
  | .write => .read

structure PipeInner extends Buffer UInt8 where
  readopen : Bool
  writeopen : Bool

def PipeInner.isOpen (pipe : PipeInner) : Side → Bool
  | .read => pipe.readopen
  | .write => pipe.writeopen

def PipeInner.shut (pipe : PipeInner) : Side → PipeInner
  | .read => { pipe with readopen := false }
  | .write => { pipe with writeopen := false }

/-- The parts of `sleep`: the lock of the process is taken, the mutex is
dropped, the state is `Sleeping`. -/
inductive Nap
  | locked
  | falling
  | asleep
  deriving DecidableEq

/-- Where a process is in `read`, `write` or `close`.  A call is for `n` bytes,
and `i` of them are done. -/
inductive Thread (count : ℕ)
  | idle
  /-- `write`, about to take the mutex. -/
  | writeEnter (n i : ℕ)
  /-- `write`, at the head of the loop. -/
  | writeLoop (n i : ℕ)
  /-- `write`, past the test of the loop, about to look at the buffer. -/
  | writeRoom (n i : ℕ)
  /-- `write`, waking the readers because the buffer is full. -/
  | writeFull (n i : ℕ) (rest : List (Fin count))
  /-- `write`, in `sleep`. -/
  | writeNap (n i : ℕ) (nap : Nap)
  /-- `write`, waking the readers at the end. -/
  | writeEnd (n : ℕ) (rest : List (Fin count))
  /-- `read`, about to take the mutex. -/
  | readEnter (n : ℕ)
  /-- `read`, about to test for an empty buffer. -/
  | readTest (n : ℕ)
  /-- `read`, with the buffer found empty, about to test `writeopen`. -/
  | readOpen (n : ℕ)
  /-- `read`, about to test for `killed`. -/
  | readKilled (n : ℕ)
  /-- `read`, in `sleep`. -/
  | readNap (n : ℕ) (nap : Nap)
  /-- `read`, at the head of the second loop. -/
  | readLoop (n i : ℕ)
  /-- `read`, waking the writers at the end. -/
  | readEnd (n i : ℕ) (rest : List (Fin count))
  /-- `close`, about to take the mutex. -/
  | closeEnter (side : Side)
  /-- `close`, about to clear the flag. -/
  | closeMark (side : Side)
  /-- `close`, waking the other side. -/
  | closeWake (side : Side) (rest : List (Fin count))
  /-- `close`, about to test both flags. -/
  | closeTest (side : Side)
  deriving DecidableEq

variable {count : ℕ}

/-- What the processes share.  `lock` has the mutexes of the two files and
`opened` tells whether the files exist; `freed` counts how often the page was
given back.  `accepted` and `delivered` remember the bytes that went through. -/
structure Shared (count : ℕ) where
  pipe : PipeInner
  lock : Side → Option (Fin count)
  opened : Side → Bool
  killed : Fin count → Bool
  freed : ℕ
  accepted : List UInt8
  delivered : List UInt8

structure Machine (count : ℕ) where
  shared : Shared count
  threads : Fin count → Thread count

/-- A call begins, a process is killed, or a call goes on.  `byte` is what
`copy_in` finds, if the step copies. -/
inductive Action (count : ℕ)
  | read (proc : Fin count) (n : ℕ)
  | write (proc : Fin count) (n : ℕ)
  | close (proc : Fin count) (side : Side)
  | kill (proc : Fin count)
  | proceed (proc : Fin count) (byte : UInt8)
  deriving DecidableEq

/-! ## Places -/

/-- The end that a call of `read` or `write` works on. -/
def Thread.uses : Thread count → Option Side
  | .writeEnter .. | .writeLoop .. | .writeRoom .. | .writeFull .. | .writeNap ..
  | .writeEnd .. => some .write
  | .readEnter .. | .readTest .. | .readOpen .. | .readKilled ..
  | .readNap .. | .readLoop .. | .readEnd .. => some .read
  | _ => none

/-- The end that a call of `close` works on. -/
def Thread.closes : Thread count → Option Side
  | .closeEnter side | .closeMark side | .closeWake side _
  | .closeTest side => some side
  | _ => none

def Thread.holds : Thread count → Option Side
  | .writeLoop .. | .writeRoom .. | .writeFull .. | .writeNap _ _ .locked
  | .writeEnd .. => some .write
  | .readTest .. | .readOpen .. | .readKilled .. | .readNap _ .locked
  | .readLoop .. | .readEnd .. => some .read
  | .closeMark side | .closeWake side _ | .closeTest side => some side
  | _ => none

def Nap.phase (side : Side) : Nap → Phase Side
  | .locked => .falling side
  | .falling => .falling side
  | .asleep => .asleep side

def Thread.phase : Thread count → Phase Side
  | .writeNap _ _ nap => nap.phase .write
  | .readNap _ nap => nap.phase .read
  | _ => .awake

def Thread.wake : Thread count → Thread count
  | .writeNap n i _ => .writeEnter n i
  | .readNap n _ => .readEnter n
  | thread => thread

/-- The next visit of a loop of `wake_up`: the channel, the process to visit,
and the place afterwards. -/
def Thread.waking : Thread count → Option (Side × Fin count × Thread count)
  | .writeFull n i (target :: rest) => some (.read, target, .writeFull n i rest)
  | .writeEnd n (target :: rest) => some (.read, target, .writeEnd n rest)
  | .readEnd n i (target :: rest) => some (.write, target, .readEnd n i rest)
  | .closeWake side (target :: rest) => some (side.other, target, .closeWake side rest)
  | _ => none

/-! ## Steps -/

def Shared.acquire (shared : Shared count) (side : Side) (proc : Fin count)
    (thread : Thread count) : Option (Shared count × Thread count) :=
  if shared.lock side = none then
    some ({ shared with lock := update shared.lock side (some proc) }, thread)
  else none

def Shared.release (shared : Shared count) (side : Side) : Shared count :=
  { shared with lock := update shared.lock side none }

def Shared.enqueue (shared : Shared count) (byte : UInt8) : Shared count :=
  { shared with
    pipe := { shared.pipe with
      toBuffer := push pipeSize byte shared.pipe.toBuffer }
    accepted := shared.accepted ++ [byte] }

def Shared.dequeue (shared : Shared count) : Shared count :=
  { shared with
    pipe := { shared.pipe with toBuffer := pop shared.pipe.toBuffer }
    delivered := shared.delivered ++ [shared.pipe.data (shared.pipe.nread % pipeSize)] }

/-- A step of a call that is not in a loop of `wake_up`. -/
def advance (shared : Shared count) (proc : Fin count) (byte : UInt8) :
    Thread count → Option (Shared count × Thread count)
  | .writeEnter n i => shared.acquire .write proc (.writeLoop n i)
  | .writeLoop n i =>
    if n ≤ i then some (shared, .writeEnd n (List.finRange count))
    -- `readopen` is never set again, so looking at both flags is one step
    else if shared.pipe.readopen = false ∧ shared.killed proc = true then
      some (shared.release .write, .idle)
    else some (shared, .writeRoom n i)
  | .writeRoom n i =>
    if usizeLimit ≤ shared.pipe.nread + pipeSize then none
    else if shared.pipe.nwrite = shared.pipe.nread + pipeSize then
      some (shared, .writeFull n i (List.finRange count))
    else some (shared.enqueue byte, .writeLoop n (i + 1))
  | .writeFull n i _ => some (shared, .writeNap n i .locked)
  | .writeNap n i .locked => some (shared.release .write, .writeNap n i .falling)
  | .writeNap n i .falling => some (shared, .writeNap n i .asleep)
  | .writeEnd _ _ => some (shared.release .write, .idle)
  | .readEnter n => shared.acquire .read proc (.readTest n)
  | .readTest n =>
    if shared.pipe.nread = shared.pipe.nwrite then
      some (shared, .readOpen n)
    else some (shared, .readLoop n 0)
  | .readOpen n =>
    if shared.pipe.writeopen then some (shared, .readKilled n)
    else some (shared, .readLoop n 0)
  | .readKilled n =>
    if shared.killed proc then some (shared.release .read, .idle)
    else some (shared, .readNap n .locked)
  | .readNap n .locked => some (shared.release .read, .readNap n .falling)
  | .readNap n .falling => some (shared, .readNap n .asleep)
  | .readLoop n i =>
    if n ≤ i ∨ shared.pipe.nread = shared.pipe.nwrite then
      some (shared, .readEnd n i (List.finRange count))
    else some (shared.dequeue, .readLoop n (i + 1))
  | .readEnd _ _ _ => some (shared.release .read, .idle)
  | .closeEnter side => shared.acquire side proc (.closeMark side)
  | .closeMark side =>
    some ({ shared with pipe := shared.pipe.shut side }, .closeWake side (List.finRange count))
  | .closeWake side _ => some (shared, .closeTest side)
  | .closeTest side =>
    if shared.pipe.readopen = false ∧ shared.pipe.writeopen = false then
      some ({ shared with freed := shared.freed + 1 }, .idle)
    else some (shared.release side, .idle)
  | _ => none

def proceed (machine : Machine count) (proc : Fin count) (byte : UInt8) : Option (Machine count) :=
  match (machine.threads proc).waking with
  | some (chan, target, thread) =>
    if target = proc then
      some { machine with threads := update machine.threads proc thread }
    else
      (visit Thread.phase Thread.wake chan target machine.threads).map fun threads =>
          { machine with threads := update threads proc thread }
  | none =>
    (advance machine.shared proc byte (machine.threads proc)).map fun (shared, thread) =>
        ⟨shared, update machine.threads proc thread⟩

/-- One step of the system.  The last reference to a file is dropped, and the
file closed, when no call uses it. -/
def step (machine : Machine count) : Action count → Option (Machine count)
  | .read proc n =>
    if machine.threads proc = .idle ∧ machine.shared.opened .read = true then
      some { machine with
        threads := update machine.threads proc (.readEnter n) }
    else none
  | .write proc n =>
    if machine.threads proc = .idle ∧ machine.shared.opened .write = true then
      some { machine with
        threads := update machine.threads proc (.writeEnter n 0) }
    else none
  | .close proc side =>
    if machine.threads proc = .idle ∧ machine.shared.opened side = true ∧
        ∀ other, (machine.threads other).uses ≠ some side then
      some
        { shared := { machine.shared with
            opened := update machine.shared.opened side false }
          threads := update machine.threads proc (.closeEnter side) }
    else none
  | .kill proc =>
    let killed := update machine.shared.killed proc true
    match (machine.threads proc).phase with
    | .falling _ => none
    | .awake => some { machine with shared := { machine.shared with killed := killed } }
    | .asleep _ =>
      some
        { shared := { machine.shared with killed := killed }
          threads := update machine.threads proc (machine.threads proc).wake }
  | .proceed proc byte => proceed machine proc byte

theorem acquire_eq {shared next : Shared count} {side : Side}
    {proc : Fin count} {thread place : Thread count}
    (hacquire : shared.acquire side proc thread = some (next, place)) :
    shared.lock side = none ∧ place = thread ∧
      next = { shared with lock := update shared.lock side (some proc) } := by
  rw [Shared.acquire] at hacquire
  split at hacquire
  · next hfree =>
      cases hacquire
      exact ⟨hfree, rfl, rfl⟩
  · cases hacquire

/-- The pipe itself changes in the two loops and in `close` only. -/
theorem advance_pipe {shared next : Shared count} {proc : Fin count}
    {byte : UInt8} {thread place : Thread count}
    (hadvance : advance shared proc byte thread = some (next, place)) :
    next.pipe = shared.pipe ∨ (∃ n i, thread = .writeRoom n i ∧ place = .writeLoop n (i + 1) ∧
      next = shared.enqueue byte) ∨ (∃ n i, thread = .readLoop n i ∧ place = .readLoop n (i + 1) ∧
      shared.pipe.nread ≠ shared.pipe.nwrite ∧ next = shared.dequeue) ∨
    ∃ side, thread = .closeMark side ∧ place = .closeWake side (List.finRange count) ∧
      next = { shared with pipe := shared.pipe.shut side } := by
  rw [advance.eq_def] at hadvance
  split at hadvance
  case h_3 n i =>
    split_ifs at hadvance
    · cases hadvance
      exact Or.inl rfl
    · cases hadvance
      exact Or.inr (Or.inl ⟨n, i, rfl, rfl, rfl⟩)
  case h_14 n i =>
    split_ifs at hadvance with hdone
    · cases hadvance
      exact Or.inl rfl
    · cases hadvance
      exact Or.inr (Or.inr (Or.inl ⟨n, i, rfl, rfl, fun hempty => hdone (Or.inr hempty), rfl⟩))
  case h_17 side =>
    cases hadvance
    exact Or.inr (Or.inr (Or.inr ⟨side, rfl, rfl, rfl⟩))
  all_goals first
    | obtain ⟨-, -, rfl⟩ := acquire_eq hadvance
      exact Or.inl rfl
    | split_ifs at hadvance <;> cases hadvance <;> exact Or.inl rfl
    | cases hadvance <;> exact Or.inl rfl

/-- A call goes on with a visit of its `wake_up` loop or with a step of its
own. -/
theorem proceed_cases {machine next : Machine count} {proc : Fin count}
    {byte : UInt8} (hstep : proceed machine proc byte = some next) :
    (∃ chan target place threads, (machine.threads proc).waking = some (chan, target, place) ∧
      (target = proc ∧ threads = machine.threads ∨
        visit Thread.phase Thread.wake chan target machine.threads = some threads) ∧
      next = { machine with threads := update threads proc place }) ∨
    ∃ shared place, (machine.threads proc).waking = none ∧
      advance machine.shared proc byte (machine.threads proc) = some (shared, place) ∧
      next = ⟨shared, update machine.threads proc place⟩ := by
  rw [proceed] at hstep
  split at hstep
  · next chan target place hwaking =>
      left
      split at hstep
      · next hself =>
          exact ⟨chan, target, place, _, hwaking, Or.inl ⟨hself, rfl⟩, (Option.some.inj hstep).symm⟩
      · obtain ⟨threads, hvisit, hnext⟩ := Option.map_eq_some_iff.mp hstep
        exact ⟨chan, target, place, threads, hwaking, Or.inr hvisit, hnext.symm⟩
  · next hwaking =>
      right
      obtain ⟨⟨shared, place⟩, hadvance, hnext⟩ := Option.map_eq_some_iff.mp hstep
      exact ⟨shared, place, hwaking, hadvance, hnext.symm⟩

def boot (data : ℕ → UInt8) : Machine count where
  shared :=
    { pipe := { data := data, nread := 0, nwrite := 0, readopen := true,
                writeopen := true }
      lock := fun _ => none
      opened := fun _ => true
      killed := fun _ => false
      freed := 0
      accepted := []
      delivered := [] }
  threads := fun _ => .idle

end RxOs.PipeMachine
