import RxOs.Core.Exec
import RxOs.Core.RingBuffer
import RxOs.Core.Transition

/-!
# The virtio disk

The driver of the disk, the device, and any number of processes that read and
write blocks.  What a process does between taking and dropping the mutex of the
disk is one step; the device works at any time, and the interrupt handler, which
has the mutex, takes its loop turn by turn.
-/

namespace RxOs.VirtioDisk

open Function RingBuffer

def num : ℕ := 8

def bsize : ℕ := 1024

/-- The indices of the rings are of type `u16`. -/
def indexLimit : ℕ := 2 ^ 16

/-- `VRING_DESC_F_NEXT`. -/
def descNext : ℕ := 1

/-- `VRING_DESC_F_WRITE`. -/
def descWrite : ℕ := 2

/-- What the address of a descriptor points to: a cell of `ops`, the data of a
buffer, or the status of a cell of `info`. -/
inductive Address
  | null
  | op (i : ℕ)
  | data (address : ℕ)
  | status (i : ℕ)
  deriving DecidableEq

structure VQDesc where
  addr : Address
  len : ℕ
  flags : ℕ
  next : ℕ
  deriving DecidableEq

def VQDesc.new : VQDesc := ⟨.null, 0, 0, 0⟩

structure Info where
  bufChannel : Option ℕ
  status : ℕ
  disk : Bool

/-- `VirtIOBlkReq`; `type_` is 1 for a write and 0 for a read. -/
structure VirtIOBlkReq where
  type : ℕ
  reserved : ℕ
  sector : ℕ

/-- A call of `rw`: the address of the data of the buffer, the number of its
block, and the direction. -/
structure Request where
  data : ℕ
  blockno : ℕ
  writing : Bool
  deriving DecidableEq

/-- The array `idx` of a call of `rw`. -/
structure Chain where
  head : ℕ
  body : ℕ
  tail : ℕ
  deriving DecidableEq

def Chain.members (chain : Chain) : List ℕ :=
  [chain.head, chain.body, chain.tail]

/-- `Disk`.  The counter `nwrite` of `avail` is its `idx`, and `nread` is how far
the device has read; the counter `nwrite` of `used` is its `idx`, and `nread` is
the field `used_idx`. -/
structure Disk where
  desc : ℕ → VQDesc
  avail : Buffer ℕ
  used : Buffer ℕ
  free : ℕ → Bool
  info : ℕ → Info
  ops : ℕ → VirtIOBlkReq

/-- Where a process is in `rw`: about to allocate descriptors, or waiting for
the disk. -/
inductive Thread
  | idle
  | seeking (request : Request) (asleep : Bool)
  | issued (request : Request) (chain : Chain) (asleep : Bool)
  deriving DecidableEq

/-- The addresses processes sleep on: that of `free[0]`, and those of the data
of buffers. -/
inductive Channel
  | free
  | data (address : ℕ)
  deriving DecidableEq

inductive Panic
  /-- "desc index not correct". -/
  | descIndex
  /-- "interrupt status". -/
  | interruptStatus
  /-- "virtio disk intr handler not found pre-stored buf channel to wakeup". -/
  | noChannel
  /-- The assertion about the channel in `rw`. -/
  | channelMismatch
  | outOfBounds
  | overflow
  deriving DecidableEq

variable {count : ℕ}

/-- The driver, what the device has taken from the avail ring and not completed,
whether the interrupt handler has the mutex, and the processes. -/
structure Machine (count : ℕ) where
  disk : Disk
  service : List ℕ
  handling : Bool
  threads : Fin count → Thread
  panic : Option Panic

/-! ## Sleeping and waking -/

def Thread.channel : Thread → Option Channel
  | .seeking _ true => some .free
  | .issued request _ true => some (.data request.data)
  | _ => none

def Thread.awaken : Thread → Thread
  | .idle => .idle
  | .seeking request _ => .seeking request false
  | .issued request chain _ => .issued request chain false

def wakeUp (channel : Channel) (threads : Fin count → Thread) : Fin count → Thread :=
  fun proc =>
    if (threads proc).channel = some channel then (threads proc).awaken
    else threads proc

/-! ## The driver -/

abbrev Driver (count : ℕ) (Value : Type) : Type :=
  EStateM Panic (Machine count) Value

def modifyDisk (change : Disk → Disk) : Driver count PUnit :=
  modify fun machine => { machine with disk := change machine.disk }

def allocDesc : Driver count (Option ℕ) := do
  let machine ← get
  match (List.range num).find? machine.disk.free with
  | some i =>
    modifyDisk fun disk => { disk with free := update disk.free i false }
    pure (some i)
  | none => pure none

def freeDesc (i : ℕ) : Driver count PUnit := do
  let machine ← get
  if num ≤ i ∨ machine.disk.free i = true then throw .descIndex
  else
    modifyDisk fun disk =>
      { disk with
        desc := update disk.desc i VQDesc.new
        free := update disk.free i true }
    modify fun machine => { machine with threads := wakeUp .free machine.threads }

/-- The roll-back of `alloc3_desc`: it frees the descriptors `0` to `taken - 1`,
not the ones that were allocated. -/
def rollBack (taken : ℕ) : Driver count PUnit :=
  (List.range taken).forM freeDesc

def alloc3Desc : Driver count (Option Chain) := do
  match ← allocDesc with
  | none => do
    rollBack 0
    pure none
  | some head =>
    match ← allocDesc with
    | none => do
      rollBack 1
      pure none
    | some body =>
      match ← allocDesc with
      | none => do
        rollBack 2
        pure none
      | some tail => pure (some ⟨head, body, tail⟩)

/-- `free_chain`, for so many turns at most. -/
def freeChain : ℕ → ℕ → Driver count PUnit
  | 0, _ => throw .descIndex
  | turns + 1, i => do
    let machine ← get
    if num ≤ i then throw .outOfBounds
    else
      freeDesc i
      if (machine.disk.desc i).flags &&& descNext ≠ 0 then
        freeChain turns (machine.disk.desc i).next
      else pure ⟨⟩

/-- The descriptors of a request, as the device will read them. -/
def format (request : Request) (chain : Chain) (disk : Disk) : Disk :=
  { disk with
    ops := update disk.ops chain.head
      ⟨if request.writing then 1 else 0, 0, request.blockno * (bsize / 512)⟩
    desc := update (update (update disk.desc chain.head ⟨.op chain.head, 16, descNext, chain.body⟩)
        chain.body ⟨.data request.data, bsize,
          (if request.writing then 0 else descWrite) ||| descNext, chain.tail⟩)
        chain.tail ⟨.status chain.head, 1, descWrite, 0⟩
    info := update disk.info chain.head ⟨some request.data, 255, true⟩ }

/-- `rw`, from the wait for the disk on. -/
def await (proc : Fin count) (request : Request) (chain : Chain) :
    Driver count PUnit := do
  let machine ← get
  let info := machine.disk.info chain.head
  if info.disk then
    set { machine with
      threads := update machine.threads proc (.issued request chain true) }
  else
    modifyDisk fun disk =>
      { disk with
        info := update disk.info chain.head { info with bufChannel := none } }
    if info.bufChannel = none then throw .noChannel
    else if info.bufChannel ≠ some request.data then throw .channelMismatch
    else
      freeChain (num + 1) chain.head
      modify fun machine => { machine with threads := update machine.threads proc .idle }

/-- `rw`, from the allocation of descriptors on. -/
def attempt (proc : Fin count) (request : Request) : Driver count PUnit := do
  match ← alloc3Desc with
  | none =>
    modify fun machine =>
      { machine with
        threads := update machine.threads proc (.seeking request true) }
  | some chain =>
    modifyDisk (format request chain)
    let machine ← get
    if machine.disk.avail.nwrite + 1 = indexLimit then throw .overflow
    else
      modifyDisk fun disk => { disk with avail := push num chain.head disk.avail }
      await proc request chain

/-- One turn of the loop of `intr`. -/
def turn : Driver count PUnit := do
  let machine ← get
  let id := machine.disk.used.data (machine.disk.used.nread % num)
  if num ≤ id then throw .outOfBounds
  else if (machine.disk.info id).status ≠ 0 then throw .interruptStatus
  else
    match (machine.disk.info id).bufChannel with
    | none => throw .noChannel
    | some channel =>
      modify fun machine =>
        { machine with
          disk := { machine.disk with
            info := update machine.disk.info id { machine.disk.info id with disk := false } }
          threads := wakeUp (.data channel) machine.threads }
      if machine.disk.used.nread + 1 = indexLimit then throw .overflow
      else modifyDisk fun disk => { disk with used := pop disk.used }

/-! ## Steps -/

inductive Action (count : ℕ)
  /-- A process calls `rw`. -/
  | call (proc : Fin count) (request : Request)
  /-- A process that is awake takes the mutex and goes on in `rw`. -/
  | proceed (proc : Fin count)
  /-- A process is killed; if it sleeps, that wakes it. -/
  | kill (proc : Fin count)
  /-- The device takes the next request from the avail ring. -/
  | fetch
  /-- The device completes a request and reports it in the used ring. -/
  | complete (head : ℕ)
  /-- `intr` takes the mutex, takes a turn of its loop, or is done. -/
  | enter
  | turn
  | leave
  deriving DecidableEq

/-- Run code with the mutex.  A panic ends everything, and what it leaves behind
in memory is of no interest. -/
def exec (program : Driver count PUnit) (machine : Machine count) : Machine count :=
  match program machine with
  | .ok _ next => next
  | .error cause _ => { machine with panic := some cause }

def proceed (machine : Machine count) (proc : Fin count) : Option (Machine count) :=
  match machine.threads proc with
  | .seeking request false => some (exec (attempt proc request) machine)
  | .issued request chain false => some (exec (await proc request chain) machine)
  | _ => none

def step (machine : Machine count) (action : Action count) : Option (Machine count) :=
  if machine.panic ≠ none then none
  else
    match action with
    | .call proc request =>
      if machine.threads proc = .idle then
        some { machine with
          threads := update machine.threads proc (.seeking request false) }
      else none
    | .proceed proc =>
      if machine.handling then none else proceed machine proc
    | .kill proc =>
      some { machine with
        threads := update machine.threads proc (machine.threads proc).awaken }
    | .fetch =>
      if machine.disk.avail.nread = machine.disk.avail.nwrite then none
      else
        some { machine with
          disk := { machine.disk with avail := pop machine.disk.avail }
          service := machine.disk.avail.data (machine.disk.avail.nread % num) :: machine.service }
    | .complete head =>
      if head ∈ machine.service then
        some { machine with
          disk := { machine.disk with
            used := push num head machine.disk.used
            info := update machine.disk.info head { machine.disk.info head with status := 0 } }
          service := machine.service.erase head }
      else none
    | .enter =>
      if machine.handling then none
      else some { machine with handling := true }
    | .turn =>
      if machine.handling ∧ machine.disk.used.nread ≠ machine.disk.used.nwrite then
        some (exec turn machine)
      else none
    | .leave =>
      if machine.handling ∧ machine.disk.used.nread = machine.disk.used.nwrite then
        some { machine with handling := false }
      else none

/-- The machine after `init`. -/
def boot : Machine count where
  disk :=
    { desc := fun _ => VQDesc.new
      avail := ⟨fun _ => 0, 0, 0⟩
      used := ⟨fun _ => 0, 0, 0⟩
      free := fun _ => true
      info := fun _ => ⟨none, 0, false⟩
      ops := fun _ => ⟨0, 0, 0⟩ }
  service := []
  handling := false
  threads := fun _ => .idle
  panic := none

end RxOs.VirtioDisk
