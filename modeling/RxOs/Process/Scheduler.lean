import RxOs.Core.Custody
import RxOs.Process.WaitList

/-!
# CPUs and processes

Any number of CPUs that run the scheduler and, by way of `switch`, the kernel
threads of processes.  The lock of a slot is taken by one thread and released
by another after a `switch`; everything else that is done with the lock of a
slot is one step.  Timer interrupts come while the scheduler or a process runs
with interrupts on.  A process leaves by `ProcManager::exit` or, if it was
killed, by `process::exit`.
-/

namespace RxOs.Scheduler

open Function
open WaitList (ProcState)

/-- The addresses processes sleep on: that of a process, and all others. -/
inductive Channel (procs : ℕ)
  | addr (proc : Fin procs)
  | other (n : ℕ)
  deriving DecidableEq

/-- `ProcManager::exit`, and `process::exit`, which killed processes take. -/
inductive Path
  | manager
  | killed
  deriving DecidableEq

/-- What the field `context` of a process holds: the context of `fork_ret`, that
of a process in `yielding`, `sleep` or `exit`, or one that is out of date
because the process runs. -/
inductive Context
  | stale
  | fresh
  | yielded
  | slept
  | ended
  deriving DecidableEq

inductive Location (procs : ℕ)
  /-- `seek_runnable`, with the slots it has still to look at. -/
  | seek (rest : List (Fin procs))
  /-- `scheduler`, before `set_proc(Some(p))`. -/
  | picked (proc : Fin procs)
  /-- `scheduler`, before the lock of the slot is taken. -/
  | chosen (proc : Fin procs)
  /-- `scheduler`, before `switch`. -/
  | locked (proc : Fin procs)
  /-- `scheduler`, after `switch`, before `set_proc(None)`. -/
  | back (proc : Fin procs)
  /-- `scheduler`, before the lock of the slot is dropped. -/
  | cleared (proc : Fin procs)
  /-- A process after `switch`, with the lock of its slot. -/
  | resumed (proc : Fin procs) (context : Context)
  /-- A process outside of its lock. -/
  | running (proc : Fin procs)
  /-- A process with the lock of its slot, before `switch`. -/
  | parting (proc : Fin procs) (context : Context)
  deriving DecidableEq

/-- What a process is at, whether or not it runs just now. -/
inductive Task (procs : ℕ)
  | idle
  /-- `fork`, with a slot from `alloc_proc`. -/
  | forking (child : Fin procs)
  /-- `fork`, about to write the entry of the child in the wait list. -/
  | linking (child : Fin procs)
  /-- `wait`, with the lock of the wait list. -/
  | waiting
  /-- `wait`, with the lock of the wait list and a zombie found. -/
  | reaping (child : Fin procs)
  /-- `wait`, after `sleep`. -/
  | again
  /-- `exit`, with the files closed. -/
  | leaving (path : Path) (status : ℕ)
  /-- `exit`, with the lock of the wait list and the visits still to make to
  wake the init process and the parent. -/
  | dying (path : Path) (status : ℕ) (visits : List (Option (Fin procs) × Fin procs))
  deriving DecidableEq

structure Slot (procs harts : ℕ) where
  state : ProcState
  chan : Option (Channel procs)
  lock : Option (Fin harts)
  context : Context
  deriving DecidableEq

variable {procs harts : ℕ}

/-- The CPUs and the process table.  `process` is the field of the CPU; `frame`
is what `switch` to the context of the CPU goes back to, a process in
`scheduler` and the stack that runs on, which is `none` for the stack of the
CPU; `stack` is the stack that the scheduler of the CPU runs on now. -/
structure Machine (procs harts : ℕ) where
  places : Fin harts → Location procs
  process : Fin harts → Option (Fin procs)
  frame : Fin harts → Option (Fin procs × Option (Fin procs))
  stack : Fin harts → Option (Fin procs)
  slots : Fin procs → Slot procs harts
  tasks : Fin procs → Task procs
  waitLock : Option (Fin harts)
  waitList : Fin procs → Option (Fin procs)
  initProc : Fin procs
  killed : Fin procs → Bool
  xstate : Fin procs → ℕ
  pids : ℕ
  idxPids : Fin procs → Option ℕ
  files : Fin procs → ℕ → Option ℕ
  cwd : Fin procs → Option ℕ

inductive Move (procs : ℕ)
  | scan
  | setProc
  | acquire
  | enter
  | release
  | timer
  | sleep (n : ℕ)
  | part
  | clear
  | drop
  | wake (n : ℕ) (target : Fin procs)
  | kill (target : Fin procs)
  | openFile (fd : ℕ) (file : Option ℕ)
  | chdir (dir : Option ℕ)
  | alloc (child : Fin procs)
  | publish
  | link
  | wait
  | find (child : Fin procs)
  | giveUp
  | nap
  | reap
  | exit (path : Path) (status : ℕ)
  | reparent
  | visit
  | finish
  deriving DecidableEq

/-! ## Places -/

def Location.has : Location procs → Option (Fin procs)
  | .seek _ => none
  | .picked proc | .chosen proc | .locked proc | .back proc | .cleared proc
  | .resumed proc _ | .running proc | .parting proc _ => some proc

def Machine.onStack (machine : Machine procs harts) (hart : Fin harts) : Option (Fin procs) :=
  match machine.places hart with
  | .resumed proc _ | .running proc | .parting proc _ => some proc
  | _ => machine.stack hart

def Task.holds : Task procs → Bool
  | .waiting | .reaping _ | .dying .. => true
  | _ => false

/-! ## Steps -/

/-- One visit of `wake_up` to a slot whose lock is free. -/
def Slot.wakeUp (channel : Option (Channel procs)) (slot : Slot procs harts) : Slot procs harts :=
  if slot.state = .sleeping ∧ slot.chan = channel then
    { slot with state := .runnable }
  else slot

/-- A visit of `wake_up`, on the CPU; its own process is left out. -/
def wakeTarget (machine : Machine procs harts) (hart : Fin harts)
    (channel : Option (Channel procs)) (target : Fin procs) : Option (Machine procs harts) :=
  if machine.process hart = some target then some machine
  else if (machine.slots target).lock = none then
    some { machine with
      slots := update machine.slots target ((machine.slots target).wakeUp channel) }
  else none

/-- `try_yield_proc`. -/
def tryYield (machine : Machine procs harts) (hart : Fin harts) : Option (Machine procs harts) :=
  match machine.process hart with
  | none => some machine
  | some proc =>
    if (machine.slots proc).lock ≠ none then none
    else if (machine.slots proc).state = .running then
      some { machine with
        slots := update machine.slots proc
          { machine.slots proc with state := .runnable, lock := some hart }
        places := update machine.places hart (.parting proc .yielded) }
    else some machine

def switching (machine : Machine procs harts) (hart : Fin harts) :
    Move procs → Option (Machine procs harts)
  | .scan =>
    match machine.places hart with
    | .seek [] =>
      some { machine with
        places := update machine.places hart (.seek (List.finRange procs)) }
    | .seek (proc :: rest) =>
      if (machine.slots proc).lock ≠ none then none
      else if (machine.slots proc).state = .runnable then
        some { machine with
          slots := update machine.slots proc { machine.slots proc with state := .allocated }
          places := update machine.places hart (.picked proc) }
      else
        some { machine with
          places := update machine.places hart (.seek rest) }
    | _ => none
  | .setProc =>
    match machine.places hart with
    | .picked proc =>
      some { machine with
        process := update machine.process hart (some proc)
        places := update machine.places hart (.chosen proc) }
    | _ => none
  | .acquire =>
    match machine.places hart with
    | .chosen proc =>
      if (machine.slots proc).lock = none then
        some { machine with
          slots := update machine.slots proc
            { machine.slots proc with
              state := .running, lock := some hart }
          places := update machine.places hart (.locked proc) }
      else none
    | _ => none
  | .enter =>
    match machine.places hart with
    | .locked proc =>
      some { machine with
        frame := update machine.frame hart (some (proc, machine.stack hart))
        slots := update machine.slots proc { machine.slots proc with context := .stale }
        places := update machine.places hart (.resumed proc (machine.slots proc).context) }
    | _ => none
  | .release =>
    match machine.places hart with
    | .resumed proc context =>
      some { machine with
        slots := update machine.slots proc
          { machine.slots proc with
            lock := none
            chan := if context = .slept then none
              else (machine.slots proc).chan }
        places := update machine.places hart (.running proc) }
    | _ => none
  | .timer =>
    match machine.places hart with
    | .seek _ | .picked _ | .chosen _ => tryYield machine hart
    | .running proc =>
      if (machine.tasks proc).holds then none else tryYield machine hart
    | _ => none
  | .part =>
    match machine.places hart, machine.frame hart with
    | .parting proc context, some (next, stack) =>
      some { machine with
        slots := update machine.slots proc { machine.slots proc with context := context }
        stack := update machine.stack hart stack
        places := update machine.places hart (.back next) }
    | _, _ => none
  | .clear =>
    match machine.places hart with
    | .back proc =>
      some { machine with
        process := update machine.process hart none
        places := update machine.places hart (.cleared proc) }
    | _ => none
  | .drop =>
    match machine.places hart with
    | .cleared proc =>
      some { machine with
        slots := update machine.slots proc { machine.slots proc with lock := none }
        places := update machine.places hart (.seek (List.finRange procs)) }
    | _ => none
  | _ => none

def Machine.block (machine : Machine procs harts) (hart : Fin harts)
    (proc : Fin procs) (channel : Channel procs) : Machine procs harts :=
  { machine with
    slots := update machine.slots proc
      { machine.slots proc with
        chan := some channel, state := .sleeping, lock := some hart }
    places := update machine.places hart (.parting proc .slept) }

/-- The visits of `reparent` and `exit`: one loop of `wake_up` on the address of
the init process for each child, and one on that of the parent. -/
def exitVisits (machine : Machine procs harts) (proc : Fin procs) :
    List (Option (Fin procs) × Fin procs) :=
  ((List.finRange procs).filter fun child => machine.waitList child = some proc).flatMap
    (fun _ => (List.finRange procs).map (some machine.initProc, ·)) ++
  (List.finRange procs).map (if machine.waitList proc = some proc then some machine.initProc
      else machine.waitList proc, ·)

/-- The end of `exit`.  `ProcManager::exit` keeps the lock of the slot and
leaves through `sched`; `process::exit` drops it and calls `scheduler`. -/
def finish (machine : Machine procs harts) (hart : Fin harts)
    (proc : Fin procs) (path : Path) (status : ℕ) : Machine procs harts :=
  let machine :=
    { machine with
      waitLock := none
      xstate := update machine.xstate proc status
      tasks := update machine.tasks proc .idle }
  match path with
  | .manager =>
    { machine with
      slots := update machine.slots proc
        { machine.slots proc with state := .zombie, lock := some hart }
      places := update machine.places hart (.parting proc .ended) }
  | .killed =>
    { machine with
      slots := update machine.slots proc { machine.slots proc with state := .zombie }
      stack := update machine.stack hart (some proc)
      places := update machine.places hart (.seek (List.finRange procs)) }

def working (machine : Machine procs harts) (hart : Fin harts)
    (proc : Fin procs) : Move procs → Option (Machine procs harts)
  | .sleep n =>
    match machine.tasks proc with
    | .idle | .leaving .. =>
      if (machine.slots proc).lock = none then
        some (machine.block hart proc (.other n))
      else none
    | _ => none
  | .kill target =>
    if (machine.slots target).lock = none then
      some { machine with
        killed := update machine.killed target true
        slots := update machine.slots target
          ((machine.slots target).wakeUp (machine.slots target).chan) }
    else none
  | .openFile fd file =>
    if machine.tasks proc = .idle then
      some { machine with
        files := update machine.files proc (update (machine.files proc) fd file) }
    else none
  | .chdir dir =>
    if machine.tasks proc = .idle then
      some { machine with cwd := update machine.cwd proc dir }
    else none
  | .alloc child =>
    if machine.tasks proc = .idle ∧ (machine.slots child).lock = none ∧
        (machine.slots child).state = .unused then
      some { machine with
        slots := update machine.slots child
          { machine.slots child with state := .allocated, context := .fresh }
        pids := machine.pids + 1
        idxPids := update machine.idxPids child (some machine.pids)
        tasks := update machine.tasks proc (.forking child) }
    else none
  | .publish =>
    match machine.tasks proc with
    | .forking child =>
      if (machine.slots child).lock = none then
        some { machine with
          slots := update machine.slots child { machine.slots child with state := .runnable }
          files := update machine.files child (machine.files proc)
          cwd := update machine.cwd child (machine.cwd proc)
          tasks := update machine.tasks proc (.linking child) }
      else none
    | _ => none
  | .link =>
    match machine.tasks proc with
    | .linking child =>
      if machine.waitLock = none then
        some { machine with
          waitList := update machine.waitList child (some proc)
          tasks := update machine.tasks proc .idle }
      else none
    | _ => none
  | .wait =>
    if (machine.tasks proc = .idle ∨ machine.tasks proc = .again) ∧ machine.waitLock = none then
      some { machine with
        waitLock := some hart
        tasks := update machine.tasks proc .waiting }
    else none
  | .find child =>
    if machine.tasks proc = .waiting ∧ machine.waitList child = some proc ∧
        (machine.slots child).lock = none ∧ (machine.slots child).state = .zombie then
      some { machine with
        tasks := update machine.tasks proc (.reaping child) }
    else none
  | .giveUp =>
    if machine.tasks proc = .waiting then
      some { machine with
        waitLock := none
        tasks := update machine.tasks proc .idle }
    else none
  | .nap =>
    if machine.tasks proc = .waiting ∧ (machine.slots proc).lock = none then
      some { machine.block hart proc (.addr proc) with
        waitLock := none
        tasks := update machine.tasks proc .again }
    else none
  | .reap =>
    match machine.tasks proc with
    | .reaping child =>
      if (machine.slots child).lock = none then
        some { machine with
          slots := update machine.slots child
            { machine.slots child with state := .unused, chan := none }
          killed := update machine.killed child false
          xstate := update machine.xstate child 0
          waitLock := none
          tasks := update machine.tasks proc .idle }
      else none
    | _ => none
  | .exit path status =>
    if machine.tasks proc = .idle ∧ (path = .killed → machine.killed proc = true) then
      some { machine with
        files := update machine.files proc fun _ => none
        cwd := update machine.cwd proc none
        idxPids := match path with
          | .manager => update machine.idxPids proc none
          | .killed => machine.idxPids
        tasks := update machine.tasks proc (.leaving path status) }
    else none
  | .reparent =>
    match machine.tasks proc with
    | .leaving path status =>
      if machine.waitLock = none then
        some { machine with
          waitLock := some hart
          waitList := fun child =>
            if machine.waitList child = some proc then
              some machine.initProc
            else machine.waitList child
          tasks := update machine.tasks proc (.dying path status (exitVisits machine proc)) }
      else none
    | _ => none
  | .visit =>
    match machine.tasks proc with
    | .dying path status ((address, target) :: rest) =>
      (wakeTarget machine hart (address.map .addr) target).map
        fun next => { next with
          tasks := update next.tasks proc (.dying path status rest) }
    | _ => none
  | .finish =>
    match machine.tasks proc with
    | .dying path status [] =>
      if (machine.slots proc).lock = none then
        some (finish machine hart proc path status)
      else none
    | _ => none
  | _ => none

/-- One step of a CPU.  `wake_up` on an address that is not that of a process
may be called by interrupt handlers, whatever they interrupt. -/
def step (machine : Machine procs harts) :
    Fin harts × Move procs → Option (Machine procs harts)
  | (hart, .wake n target) =>
    match machine.places hart with
    | .seek _ | .picked _ | .chosen _ | .running _ =>
      wakeTarget machine hart (some (.other n)) target
    | _ => none
  | (hart, move) =>
    match switching machine hart move with
    | some next => some next
    | none =>
      match machine.places hart with
      | .running proc => working machine hart proc move
      | _ => none

def boot (initProc : Fin procs) : Machine procs harts where
  places := fun _ => .seek (List.finRange procs)
  process := fun _ => none
  frame := fun _ => none
  stack := fun _ => none
  slots := update (fun _ => ⟨.unused, none, none, .stale⟩) initProc ⟨.runnable, none, none, .fresh⟩
  tasks := fun _ => .idle
  waitLock := none
  waitList := fun _ => none
  initProc := initProc
  killed := fun _ => false
  xstate := fun _ => 0
  pids := 1
  idxPids := update (fun _ => none) initProc (some 0)
  files := fun _ _ => none
  cwd := update (fun _ => none) initProc (some 1)

end RxOs.Scheduler
