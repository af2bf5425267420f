import RxOs.Fs.BufControl
import RxOs.Fs.LogMachine

/-!
# The buffer cache under interleaving

Processes get, lock, fill, change, log and drop buffers, and one of them commits
the log.  Each step is one hold of the cache's spin lock or of the `LOG` mutex,
one acquisition or release of a slot's sleep lock, or what the holder of sleep
locks does in between.  `Buf::pin` and `Buf::unpin` change the reference count
without the spin lock, so each of them is a load and a store with a step
boundary in between.  The steps of the log are those of `RxOs.LogMachine`.
-/

namespace RxOs.BufCache

open Function Params LogState Transition LogMachine
open BufControl (BufLru Slot)

/-- What is being done with a `Buf`.  A buffer in `pinning` or `unpinning` has
loaded the reference count and not stored it yet. -/
inductive Phase
  | waiting
  | locked
  | loaded
  | dirty
  | pinning (refcnt : ℕ)
  | unpinning (refcnt : ℕ)
  | dropping
  | leaving
  deriving DecidableEq

namespace Phase

def holds : Phase → Bool
  | .waiting | .leaving => false
  | .locked | .loaded | .dirty | .pinning _ | .unpinning _ | .dropping => true

/-- The phases between the return of `BCache::read` and `Log::write` or the
drop. -/
def usable : Phase → Bool
  | .loaded | .dirty => true
  | .waiting | .locked | .pinning _ | .unpinning _ | .dropping | .leaving => false

/-- `Log::write` holds the `LOG` mutex for this buffer. -/
def pins : Phase → Bool
  | .pinning _ => true
  | .waiting | .locked | .loaded | .dirty | .unpinning _ | .dropping
  | .leaving => false

def pending : Phase → Option ℕ
  | .pinning refcnt | .unpinning refcnt => some refcnt
  | .waiting | .locked | .loaded | .dirty | .dropping | .leaving => none

theorem pending_of_not_holds {phase : Phase} (hholds : phase.holds = false) :
    phase.pending = none := by
  cases phase with
  | pinning | unpinning => cases hholds
  | _ => rfl

theorem holds_of_usable {phase : Phase} (husable : phase.usable = true) : phase.holds = true := by
  cases phase with
  | waiting | leaving => cases husable
  | _ => rfl

end Phase

/-- A live `Buf` of a process. -/
structure Handle (Proc : Type*) where
  proc : Proc
  index : Slot
  dev : UInt32
  blockno : UInt32
  phase : Phase
  deriving DecidableEq

/-- How far the work on the log has come: the recovery at boot, `write_log`
with a number of blocks written, `install_trans` with a number of blocks
installed and unpinned, or with one more installed, `empty_head`, or none. -/
inductive Progress
  | recovering
  | logging (count : ℕ)
  | installing (count : ℕ)
  | installed (count : ℕ)
  | clearing
  | done
  deriving DecidableEq

def Progress.unpinned : Progress → ℕ
  | .installing count | .installed count => count
  | .recovering | .logging _ | .clearing | .done => 0

def Progress.atRest : Progress → Bool
  | .recovering | .done => true
  | .logging _ | .installing _ | .installed _ | .clearing => false

theorem Progress.unpinned_of_atRest {progress : Progress}
    (hrest : progress.atRest = true) : progress.unpinned = 0 := by
  cases progress with
  | recovering | done => rfl
  | _ => cases hrest

/-- Why a step is not taken: a panic of the cache, or a wait for a lock, an
operation that is not in order or a panic of the log. -/
inductive Halt
  | noUsableBuffer
  | unpinNotMatch
  | refcntUnderflow
  | blocked
  deriving DecidableEq

/-- The cache, the disk, the buffers in use and the log of device `dev`. -/
structure Cache (Proc : Type*) where
  dev : UInt32
  lru : BufLru
  locked : Slot → Bool
  valid : Slot → Bool
  data : Slot → Block
  disk : UInt32 → Block
  handles : Multiset (Handle Proc)
  machine : Machine Proc
  progress : Progress

inductive Action (Proc : Type*)
  | get (proc : Proc) (dev blockno : UInt32)
  | lock (buf : Handle Proc)
  | load (buf : Handle Proc)
  | store (buf : Handle Proc) (block : Block)
  | logWrite (buf : Handle Proc)
  | pin (buf : Handle Proc)
  | unlock (buf : Handle Proc)
  | release (buf : Handle Proc)
  | beginOp (proc : Proc)
  | endOp (proc : Proc)
  | writeLog (cacheBuf logBuf : Handle Proc)
  | writeHead (buf : Handle Proc)
  | install (logBuf diskBuf : Handle Proc)
  | loadRefcnt (diskBuf : Handle Proc)
  | unpin (diskBuf : Handle Proc)
  | emptyHead (proc : Proc)
  | clearHead (buf : Handle Proc)
  | skip (proc : Proc)
  | finish (proc : Proc)
  | restore (buf : Handle Proc) (block : Block)
  | recovered

/-- The process that takes the step; the recovery at boot is nobody's. -/
def Action.agent {Proc : Type*} : Action Proc → Option Proc
  | .get proc _ _ | .beginOp proc | .endOp proc | .emptyHead proc | .skip proc
  | .finish proc => some proc
  | .lock buf | .load buf | .store buf _ | .logWrite buf | .pin buf | .unlock buf
  | .release buf | .writeLog buf _ | .writeHead buf | .install _ buf
  | .loadRefcnt buf | .unpin buf | .clearHead buf | .restore buf _ => some buf.proc
  | .recovered => none

def reads : Stage → Bool
  | .reading _ => true
  | .idle | .emptied => false

def empties : Stage → Bool
  | .emptied => true
  | .idle | .reading _ => false

namespace Cache

variable {Proc : Type*} [DecidableEq Proc]

def boot (Proc : Type*) (dev : UInt32) (start size : ℕ) (disk : UInt32 → Block) : Cache Proc where
  dev := dev
  lru := BufLru.new
  locked := fun _ => false
  valid := fun _ => false
  data := fun _ _ => 0
  disk := disk
  handles := 0
  machine := Machine.initial Proc start size
  progress := .recovering

def logged (cache : Cache Proc) : List UInt32 := cache.machine.log.lh.logged

/-- The logged blocks whose slots have not been unpinned yet. -/
def pinned (cache : Cache Proc) : List UInt32 :=
  cache.logged.drop cache.progress.unpinned

omit [DecidableEq Proc] in
theorem logged_congr {cache next : Cache Proc} (hmachine : next.machine = cache.machine)
    (hprogress : next.progress = cache.progress) :
    next.logged = cache.logged ∧ next.pinned = cache.pinned := by
  rw [pinned, logged, hmachine, hprogress]
  exact ⟨rfl, rfl⟩

def share (cache : Cache Proc) (slot : Slot) : ℕ :=
  if cache.lru.dev slot = cache.dev ∧ cache.lru.blockno slot ∈ cache.pinned
  then 1 else 0

def users (cache : Cache Proc) (slot : Slot) : ℕ :=
  cache.handles.countP fun handle => handle.index = slot

def enter (cache : Cache Proc) (buf : Handle Proc) (phase : Phase) : Cache Proc :=
  { cache with
    handles := { buf with phase := phase } ::ₘ cache.handles.erase buf }

def setData (cache : Cache Proc) (buf : Handle Proc) (block : Block) : Cache Proc :=
  { cache with data := update cache.data buf.index block }

def write (cache : Cache Proc) (buf : Handle Proc) : Cache Proc :=
  { cache with
    disk := update cache.disk buf.blockno (cache.data buf.index) }

def Has (cache : Cache Proc) (proc : Proc) (buf : Handle Proc) : Prop :=
  buf ∈ cache.handles ∧ buf.phase = .loaded ∧ buf.proc = proc ∧ buf.dev = cache.dev

instance (cache : Cache Proc) (proc : Proc) (buf : Handle Proc) : Decidable (cache.Has proc buf) :=
  inferInstanceAs (Decidable (_ ∧ _))

/-- Nobody holds the `LOG` mutex over a step boundary. -/
def LogFree (cache : Cache Proc) : Prop :=
  ∀ handle ∈ cache.handles, handle.phase.pins = false

instance (cache : Cache Proc) : Decidable cache.LogFree :=
  inferInstanceAs (Decidable (∀ handle ∈ cache.handles, _))

def whenever (condition : Prop) [Decidable condition] (next : Cache Proc) :
    Except Halt (Cache Proc) :=
  if condition then .ok next else .error .blocked

def logStep (cache : Cache Proc) (condition : Prop) [Decidable condition]
    (action : LogProtocol.Action Proc)
    (next : Machine Proc → Cache Proc) : Except Halt (Cache Proc) :=
  match cache.machine.step action with
  | some machine => whenever condition (next machine)
  | none => .error .blocked

/-- `BCache::get` up to the release of the spin lock. -/
def get (cache : Cache Proc) (proc : Proc) (dev blockno : UInt32) : Except Halt (Cache Proc) :=
  match cache.lru.findCached dev blockno with
  | some (index, lru) =>
    .ok { cache with
      lru, handles := ⟨proc, index, dev, blockno, .waiting⟩ ::ₘ cache.handles }
  | none =>
    match cache.lru.recycle dev blockno with
    | some (index, lru) =>
      .ok { cache with
        lru
        valid := update cache.valid index false
        handles := ⟨proc, index, dev, blockno, .waiting⟩ ::ₘ cache.handles }
    | none => .error .noUsableBuffer

/-- What is left of `BCache::read` once the sleep lock is held. -/
def load (cache : Cache Proc) (buf : Handle Proc) : Cache Proc :=
  if cache.valid buf.index then cache.enter buf .loaded
  else
    { cache.setData buf (cache.disk buf.blockno) with
      valid := update cache.valid buf.index true }.enter buf .loaded

/-- `Log::write` up to the load of the reference count in `pin`, or up to the
release of the mutex if the block is in the header already. -/
def logWrite (cache : Cache Proc) (buf : Handle Proc) : Except Halt (Cache Proc) :=
  cache.logStep (buf ∈ cache.handles ∧ buf.phase.usable ∧ cache.LogFree)
    (.write buf.proc buf.blockno) fun _ =>
      cache.enter buf (if buf.blockno ∈ cache.logged then .dropping
        else .pinning (cache.lru.refcnt buf.index))

/-- The rest of `Log::write`. -/
def pin (cache : Cache Proc) (buf : Handle Proc) : Except Halt (Cache Proc) :=
  match buf.phase with
  | .pinning refcnt =>
    cache.logStep (buf ∈ cache.handles) (.write buf.proc buf.blockno) fun machine =>
        { cache.enter buf .dropping with
          lru := cache.lru.setRefcnt buf.index (refcnt + 1)
          machine }
  | _ => .error .blocked

/-- `Buf::unpin` up to the load of the reference count and its check. -/
def loadRefcnt (cache : Cache Proc) (diskBuf : Handle Proc) (count : ℕ) :
    Except Halt (Cache Proc) :=
  if cache.Has diskBuf.proc diskBuf ∧ reads (cache.machine.stage diskBuf.proc) ∧
      cache.logged[count]? = some diskBuf.blockno then
    if cache.lru.refcnt diskBuf.index ≤ 1 then .error .unpinNotMatch
    else .ok (cache.enter diskBuf (.unpinning (cache.lru.refcnt diskBuf.index)))
  else .error .blocked

/-- The rest of `Buf::unpin`. -/
def unpin (cache : Cache Proc) (diskBuf : Handle Proc) (count : ℕ) : Except Halt (Cache Proc) :=
  match diskBuf.phase with
  | .unpinning refcnt =>
    whenever (diskBuf ∈ cache.handles ∧ diskBuf.dev = cache.dev ∧
        reads (cache.machine.stage diskBuf.proc) ∧ cache.logged[count]? = some diskBuf.blockno)
      { cache.enter diskBuf .loaded with
        lru := cache.lru.setRefcnt diskBuf.index (refcnt - 1)
        progress := .installing (count + 1) }
  | _ => .error .blocked

def release (cache : Cache Proc) (buf : Handle Proc) : Except Halt (Cache Proc) :=
  if buf ∈ cache.handles ∧ buf.phase = .leaving then
    match cache.lru.moveIfNoRef buf.index with
    | some lru => .ok { cache with lru, handles := cache.handles.erase buf }
    | none => .error .refcntUnderflow
  else .error .blocked

/-- One round of `write_log` with both buffers read. -/
def writeLog (cache : Cache Proc) (cacheBuf logBuf : Handle Proc)
    (count : ℕ) : Except Halt (Cache Proc) :=
  whenever (cache.Has cacheBuf.proc cacheBuf ∧ cache.Has cacheBuf.proc logBuf ∧ cacheBuf ≠ logBuf ∧
      reads (cache.machine.stage cacheBuf.proc) ∧ cache.logged[count]? = some cacheBuf.blockno ∧
      logBuf.blockno.toNat = cache.machine.log.start + (count + 1))
    { (cache.setData logBuf (cache.data cacheBuf.index)).write logBuf with
      progress := .logging (count + 1) }

/-- `write_head` with its buffer read. -/
def writeHead (cache : Cache Proc) (buf : Handle Proc) (count : ℕ) : Except Halt (Cache Proc) :=
  whenever (cache.Has buf.proc buf ∧ reads (cache.machine.stage buf.proc) ∧
      count = cache.machine.log.lh.len ∧ 0 < count ∧ buf.blockno.toNat = cache.machine.log.start)
    { (cache.setData buf
        (cache.machine.log.lh.encode (cache.data buf.index))).write buf with
      progress := .installing 0 }

/-- One round of `install_trans` with both buffers read, up to `unpin`. -/
def install (cache : Cache Proc) (logBuf diskBuf : Handle Proc) (count : ℕ) :
    Except Halt (Cache Proc) :=
  whenever (cache.Has diskBuf.proc diskBuf ∧ cache.Has diskBuf.proc logBuf ∧
      logBuf ≠ diskBuf ∧ reads (cache.machine.stage diskBuf.proc) ∧
      cache.logged[count]? = some diskBuf.blockno ∧
      logBuf.blockno.toNat = cache.machine.log.start + (count + 1))
    { (cache.setData diskBuf (cache.data logBuf.index)).write diskBuf with
      progress := .installed count }

/-- `len = 0` in the header block. -/
def clearedHead (block : Block) : Block := ByteView.writeU32s block 0 1 fun _ => 0

def attempt (cache : Cache Proc) : Action Proc → Except Halt (Cache Proc)
  | .get proc dev blockno => cache.get proc dev blockno
  | .lock buf =>
    whenever (buf ∈ cache.handles ∧ buf.phase = .waiting ∧ cache.locked buf.index = false)
      ({ cache with locked := update cache.locked buf.index true }.enter buf .locked)
  | .load buf => whenever (buf ∈ cache.handles ∧ buf.phase = .locked) (cache.load buf)
  | .store buf block =>
    whenever (buf ∈ cache.handles ∧ buf.phase.usable ∧ buf.proc ∈ cache.machine.ops)
      ((cache.setData buf block).enter buf .dirty)
  | .logWrite buf => cache.logWrite buf
  | .pin buf => cache.pin buf
  | .unlock buf =>
    whenever (buf ∈ cache.handles ∧ (buf.phase = .loaded ∨ buf.phase = .dropping))
      ({ cache with locked := update cache.locked buf.index false }.enter buf .leaving)
  | .release buf => cache.release buf
  | .beginOp proc =>
    cache.logStep (cache.LogFree ∧ cache.progress ≠ .recovering)
      (.beginOp proc) fun machine => { cache with machine }
  | .endOp proc =>
    cache.logStep cache.LogFree (.endOp proc) fun machine =>
      { cache with
        machine
        progress := if reads (machine.stage proc) then .logging 0
          else cache.progress }
  | .writeLog cacheBuf logBuf =>
    match cache.progress with
    | .logging count => cache.writeLog cacheBuf logBuf count
    | _ => .error .blocked
  | .writeHead buf =>
    match cache.progress with
    | .logging count => cache.writeHead buf count
    | _ => .error .blocked
  | .install logBuf diskBuf =>
    match cache.progress with
    | .installing count => cache.install logBuf diskBuf count
    | _ => .error .blocked
  | .loadRefcnt diskBuf =>
    match cache.progress with
    | .installed count => cache.loadRefcnt diskBuf count
    | _ => .error .blocked
  | .unpin diskBuf =>
    match cache.progress with
    | .installed count => cache.unpin diskBuf count
    | _ => .error .blocked
  | .emptyHead proc =>
    cache.logStep (cache.progress = .installing cache.machine.log.lh.len)
      (.commit proc) fun machine => { cache with machine, progress := .clearing }
  | .clearHead buf =>
    whenever (cache.progress = .clearing ∧ cache.Has buf.proc buf ∧
        empties (cache.machine.stage buf.proc) ∧ buf.blockno.toNat = cache.machine.log.start)
      { (cache.setData buf
          (clearedHead (cache.data buf.index))).write buf with
        progress := .done }
  | .skip proc =>
    cache.logStep (cache.progress = .logging 0 ∧ cache.machine.log.lh.len = 0)
      (.commit proc) fun machine => { cache with machine, progress := .done }
  | .finish proc =>
    cache.logStep (cache.progress = .done ∧ cache.LogFree) (.release proc)
      fun machine => { cache with machine }
  | .restore buf block =>
    whenever (cache.progress = .recovering ∧ cache.Has buf.proc buf)
      ((cache.setData buf block).write buf)
  | .recovered => whenever (cache.progress = .recovering) { cache with progress := .done }

def step (cache : Cache Proc) (action : Action Proc) : Option (Cache Proc) :=
  (cache.attempt action).toOption

omit [DecidableEq Proc] in
theorem whenever_eq_ok {condition : Prop} [Decidable condition]
    {after next : Cache Proc} (hstep : whenever condition after = .ok next) :
    condition ∧ next = after := by
  unfold whenever at hstep
  split at hstep
  · next hcondition =>
      cases hstep
      exact ⟨hcondition, rfl⟩
  · cases hstep

theorem logStep_eq_ok {cache next : Cache Proc} {condition : Prop}
    [Decidable condition] {action : LogProtocol.Action Proc} {after : Machine Proc → Cache Proc}
    (hstep : cache.logStep condition action after = .ok next) :
    ∃ machine, Moves cache.machine action machine ∧ condition ∧
      next = after machine := by
  unfold logStep at hstep
  split at hstep
  · next machine hmachine =>
      obtain ⟨hcondition, rfl⟩ := whenever_eq_ok hstep
      exact ⟨machine, Machine.step_moves hmachine, hcondition, rfl⟩
  · cases hstep

/-- Everything a step can do, with its guards. -/
inductive Effect (cache : Cache Proc) : Action Proc → Cache Proc → Prop
  | hit {proc dev blockno index lru}
      (hfind : cache.lru.findCached dev blockno = some (index, lru)) :
      Effect cache (.get proc dev blockno) { cache with
        lru, handles := ⟨proc, index, dev, blockno, .waiting⟩ ::ₘ cache.handles }
  | miss {proc dev blockno index lru} (hfind : cache.lru.findCached dev blockno = none)
      (hrecycle : cache.lru.recycle dev blockno = some (index, lru)) :
      Effect cache (.get proc dev blockno) { cache with
        lru
        valid := update cache.valid index false
        handles := ⟨proc, index, dev, blockno, .waiting⟩ ::ₘ cache.handles }
  | lock {buf} (hmem : buf ∈ cache.handles) (hphase : buf.phase = .waiting)
      (hfree : cache.locked buf.index = false) : Effect cache (.lock buf)
        ({ cache with locked := update cache.locked buf.index true }.enter buf .locked)
  | load {buf} (hmem : buf ∈ cache.handles) (hphase : buf.phase = .locked) :
      Effect cache (.load buf) (cache.load buf)
  | store {buf block} (hmem : buf ∈ cache.handles)
      (hphase : buf.phase.usable = true) (hop : buf.proc ∈ cache.machine.ops) :
      Effect cache (.store buf block) ((cache.setData buf block).enter buf .dirty)
  | absorb {buf machine} (hmem : buf ∈ cache.handles) (hphase : buf.phase.usable = true)
      (hmoves : Moves cache.machine (.write buf.proc buf.blockno) machine)
      (hlogged : buf.blockno ∈ cache.logged) :
      Effect cache (.logWrite buf) (cache.enter buf .dropping)
  | loadPin {buf machine} (hmem : buf ∈ cache.handles) (hphase : buf.phase.usable = true)
      (hmoves : Moves cache.machine (.write buf.proc buf.blockno) machine)
      (hlogged : buf.blockno ∉ cache.logged) : Effect cache (.logWrite buf)
        (cache.enter buf (.pinning (cache.lru.refcnt buf.index)))
  | pin {buf refcnt machine} (hmem : buf ∈ cache.handles) (hphase : buf.phase = .pinning refcnt)
      (hmoves : Moves cache.machine (.write buf.proc buf.blockno) machine) :
      Effect cache (.pin buf) { cache.enter buf .dropping with
        lru := cache.lru.setRefcnt buf.index (refcnt + 1), machine }
  | unlock {buf} (hmem : buf ∈ cache.handles)
      (hphase : buf.phase = .loaded ∨ buf.phase = .dropping) : Effect cache (.unlock buf)
        ({ cache with locked := update cache.locked buf.index false }.enter buf .leaving)
  | release {buf lru} (hmem : buf ∈ cache.handles) (hphase : buf.phase = .leaving)
      (hmove : cache.lru.moveIfNoRef buf.index = some lru) : Effect cache (.release buf)
        { cache with lru, handles := cache.handles.erase buf }
  | beginOp {proc machine} (hprogress : cache.progress ≠ .recovering)
      (hmoves : Moves cache.machine (.beginOp proc) machine) :
      Effect cache (.beginOp proc) { cache with machine }
  | endOp {proc machine} (hmoves : Moves cache.machine (.endOp proc) machine) :
      Effect cache (.endOp proc) { cache with
        machine
        progress := if reads (machine.stage proc) then .logging 0
          else cache.progress }
  | writeLog {cacheBuf logBuf count} (hprogress : cache.progress = .logging count)
      (hcache : cache.Has cacheBuf.proc cacheBuf) (hlog : cache.Has cacheBuf.proc logBuf)
      (hreads : reads (cache.machine.stage cacheBuf.proc) = true)
      (hhome : cache.logged[count]? = some cacheBuf.blockno) (hblockno : logBuf.blockno.toNat =
        cache.machine.log.start + (count + 1)) : Effect cache (.writeLog cacheBuf logBuf)
        { (cache.setData logBuf (cache.data cacheBuf.index)).write logBuf with
          progress := .logging (count + 1) }
  | writeHead {buf count} (hprogress : cache.progress = .logging count)
      (hbuf : cache.Has buf.proc buf) (hreads : reads (cache.machine.stage buf.proc) = true)
      (hcount : count = cache.machine.log.lh.len) (hpos : 0 < count)
      (hblockno : buf.blockno.toNat = cache.machine.log.start) : Effect cache (.writeHead buf)
        { (cache.setData buf
            (cache.machine.log.lh.encode (cache.data buf.index))).write buf with
          progress := .installing 0 }
  | install {logBuf diskBuf count} (hprogress : cache.progress = .installing count)
      (hdisk : cache.Has diskBuf.proc diskBuf) (hlog : cache.Has diskBuf.proc logBuf)
      (hreads : reads (cache.machine.stage diskBuf.proc) = true)
      (hhome : cache.logged[count]? = some diskBuf.blockno) (hblockno : logBuf.blockno.toNat =
        cache.machine.log.start + (count + 1)) : Effect cache (.install logBuf diskBuf)
        { (cache.setData diskBuf (cache.data logBuf.index)).write diskBuf with
          progress := .installed count }
  | loadRefcnt {diskBuf count} (hprogress : cache.progress = .installed count)
      (hdisk : cache.Has diskBuf.proc diskBuf) :
      Effect cache (.loadRefcnt diskBuf) (cache.enter diskBuf
        (.unpinning (cache.lru.refcnt diskBuf.index)))
  | unpin {diskBuf refcnt count} (hprogress : cache.progress = .installed count)
      (hmem : diskBuf ∈ cache.handles) (hphase : diskBuf.phase = .unpinning refcnt)
      (hdev : diskBuf.dev = cache.dev) (hreads : reads (cache.machine.stage diskBuf.proc) = true)
      (hhome : cache.logged[count]? = some diskBuf.blockno) :
      Effect cache (.unpin diskBuf) { cache.enter diskBuf .loaded with
        lru := cache.lru.setRefcnt diskBuf.index (refcnt - 1)
        progress := .installing (count + 1) }
  | emptyHead {proc machine} (hprogress : cache.progress = .installing cache.machine.log.lh.len)
      (hmoves : Moves cache.machine (.commit proc) machine) : Effect cache (.emptyHead proc)
        { cache with machine, progress := .clearing }
  | clearHead {buf} (hprogress : cache.progress = .clearing) (hbuf : cache.Has buf.proc buf)
      (hempties : empties (cache.machine.stage buf.proc) = true)
      (hblockno : buf.blockno.toNat = cache.machine.log.start) : Effect cache (.clearHead buf)
        { (cache.setData buf
            (clearedHead (cache.data buf.index))).write buf with
          progress := .done }
  | skip {proc machine} (hprogress : cache.progress = .logging 0)
      (hlen : cache.machine.log.lh.len = 0) (hmoves : Moves cache.machine (.commit proc) machine) :
      Effect cache (.skip proc) { cache with machine, progress := .done }
  | finish {proc machine} (hprogress : cache.progress = .done)
      (hmoves : Moves cache.machine (.release proc) machine) :
      Effect cache (.finish proc) { cache with machine }
  | restore {buf block} (hprogress : cache.progress = .recovering) (hbuf : cache.Has buf.proc buf) :
      Effect cache (.restore buf block) ((cache.setData buf block).write buf)
  | recovered (hprogress : cache.progress = .recovering) :
      Effect cache .recovered { cache with progress := .done }

theorem logWrite_effect {cache next : Cache Proc} {buf : Handle Proc}
    (hstep : cache.logWrite buf = .ok next) : Effect cache (.logWrite buf) next := by
  obtain ⟨machine, hmoves, ⟨hmem, hphase, -⟩, rfl⟩ := logStep_eq_ok hstep
  split
  · next hlogged => exact .absorb hmem hphase hmoves hlogged
  · next hlogged => exact .loadPin hmem hphase hmoves hlogged

theorem attempt_effect {cache next : Cache Proc} {action : Action Proc}
    (hstep : cache.attempt action = .ok next) : Effect cache action next := by
  cases action with
  | get proc dev blockno =>
    simp only [attempt, get] at hstep
    split at hstep
    · next index lru hfind =>
        cases hstep
        exact .hit hfind
    · next hfind =>
        split at hstep
        · next index lru hrecycle =>
            cases hstep
            exact .miss hfind hrecycle
        · cases hstep
  | lock buf =>
    obtain ⟨⟨hmem, hphase, hfree⟩, rfl⟩ := whenever_eq_ok hstep
    exact .lock hmem hphase hfree
  | load buf =>
    obtain ⟨⟨hmem, hphase⟩, rfl⟩ := whenever_eq_ok hstep
    exact .load hmem hphase
  | store buf block =>
    obtain ⟨⟨hmem, hphase, hop⟩, rfl⟩ := whenever_eq_ok hstep
    exact .store hmem hphase hop
  | logWrite buf => exact logWrite_effect hstep
  | pin buf =>
    simp only [attempt, pin] at hstep
    split at hstep
    · next refcnt hphase =>
        obtain ⟨machine, hmoves, hmem, rfl⟩ := logStep_eq_ok hstep
        exact .pin hmem hphase hmoves
    · cases hstep
  | unlock buf =>
    obtain ⟨⟨hmem, hphase⟩, rfl⟩ := whenever_eq_ok hstep
    exact .unlock hmem hphase
  | release buf =>
    simp only [attempt, release] at hstep
    split at hstep
    · next hready =>
        split at hstep
        · next lru hmove =>
            cases hstep
            exact .release hready.1 hready.2 hmove
        · cases hstep
    · cases hstep
  | beginOp proc =>
    obtain ⟨machine, hmoves, ⟨-, hprogress⟩, rfl⟩ := logStep_eq_ok hstep
    exact .beginOp hprogress hmoves
  | endOp proc =>
    obtain ⟨machine, hmoves, -, rfl⟩ := logStep_eq_ok hstep
    exact .endOp hmoves
  | writeLog cacheBuf logBuf =>
    simp only [attempt] at hstep
    split at hstep
    · next count hprogress =>
        obtain ⟨⟨hcache, hlog, -, hreads, hhome, hblockno⟩, rfl⟩ := whenever_eq_ok hstep
        exact .writeLog hprogress hcache hlog hreads hhome hblockno
    · cases hstep
  | writeHead buf =>
    simp only [attempt] at hstep
    split at hstep
    · next count hprogress =>
        obtain ⟨⟨hbuf, hreads, hcount, hpos, hblockno⟩, rfl⟩ := whenever_eq_ok hstep
        exact .writeHead hprogress hbuf hreads hcount hpos hblockno
    · cases hstep
  | install logBuf diskBuf =>
    simp only [attempt] at hstep
    split at hstep
    · next count hprogress =>
        obtain ⟨⟨hdisk, hlog, -, hreads, hhome, hblockno⟩, rfl⟩ := whenever_eq_ok hstep
        exact .install hprogress hdisk hlog hreads hhome hblockno
    · cases hstep
  | loadRefcnt diskBuf =>
    simp only [attempt, loadRefcnt] at hstep
    split at hstep
    · next count hprogress =>
        split at hstep
        · next hready =>
            split at hstep
            · cases hstep
            · cases hstep
              exact .loadRefcnt hprogress hready.1
        · cases hstep
    · cases hstep
  | unpin diskBuf =>
    simp only [attempt, unpin] at hstep
    split at hstep
    · next count hprogress =>
        split at hstep
        · next refcnt hphase =>
            obtain ⟨⟨hmem, hdev, hreads, hhome⟩, rfl⟩ := whenever_eq_ok hstep
            exact .unpin hprogress hmem hphase hdev hreads hhome
        · cases hstep
    · cases hstep
  | emptyHead proc =>
    obtain ⟨machine, hmoves, hprogress, rfl⟩ := logStep_eq_ok hstep
    exact .emptyHead hprogress hmoves
  | clearHead buf =>
    obtain ⟨⟨hprogress, hbuf, hempties, hblockno⟩, rfl⟩ := whenever_eq_ok hstep
    exact .clearHead hprogress hbuf hempties hblockno
  | skip proc =>
    obtain ⟨machine, hmoves, ⟨hprogress, hlen⟩, rfl⟩ := logStep_eq_ok hstep
    exact .skip hprogress hlen hmoves
  | finish proc =>
    obtain ⟨machine, hmoves, ⟨hprogress, -⟩, rfl⟩ := logStep_eq_ok hstep
    exact .finish hprogress hmoves
  | restore buf block =>
    obtain ⟨⟨hprogress, hbuf⟩, rfl⟩ := whenever_eq_ok hstep
    exact .restore hprogress hbuf
  | recovered =>
    obtain ⟨hprogress, rfl⟩ := whenever_eq_ok hstep
    exact .recovered hprogress

theorem step_effect {cache next : Cache Proc} {action : Action Proc}
    (hstep : cache.step action = some next) : Effect cache action next := by
  apply attempt_effect
  cases hattempt : cache.attempt action with
  | error halt => simp [step, hattempt, Except.toOption] at hstep
  | ok result => simpa [step, hattempt, Except.toOption] using hstep

theorem load_eq (cache : Cache Proc) (buf : Handle Proc) :
    ∃ valid data, cache.load buf = { cache.enter buf .loaded with valid, data } := by
  unfold load
  split
  · exact ⟨cache.valid, cache.data, rfl⟩
  · exact ⟨_, _, rfl⟩

/-- The device and the log area stay. -/
theorem place_of_step {cache next : Cache Proc} {action : Action Proc}
    (hstep : cache.step action = some next) : next.dev = cache.dev ∧
      next.machine.log.start = cache.machine.log.start ∧
      next.machine.log.size = cache.machine.log.size := by
  cases step_effect hstep with
  | @load buf hmem hphase =>
    obtain ⟨valid, data, hload⟩ := cache.load_eq buf
    rw [hload]
    exact ⟨rfl, rfl, rfl⟩
  | pin _ _ hmoves | beginOp _ hmoves | endOp hmoves | emptyHead _ hmoves | skip _ _ hmoves
  | finish _ hmoves => exact ⟨rfl, hmoves.area_eq⟩
  | _ => exact ⟨rfl, rfl, rfl⟩

/-- A process moves and drops its own buffers only. -/
theorem mem_handles_of_step {cache next : Cache Proc} {action : Action Proc}
    (hstep : cache.step action = some next) {other : Handle Proc}
    (hother : action.agent ≠ some other.proc) (hmem : other ∈ cache.handles) :
    other ∈ next.handles := by
  have herase : ∀ {buf : Handle Proc}, some buf.proc ≠ some other.proc →
      other ∈ cache.handles.erase buf := by
    intro buf hne
    refine (Multiset.mem_erase_of_ne ?_).mpr hmem
    rintro rfl
    exact hne rfl
  cases step_effect hstep with
  | hit | miss => exact Multiset.mem_cons_of_mem hmem
  | @load buf =>
    obtain ⟨valid, data, hload⟩ := cache.load_eq buf
    rw [hload]
    exact Multiset.mem_cons_of_mem (herase hother)
  | release => exact herase hother
  | lock | store | absorb | loadPin | pin | unlock | loadRefcnt | unpin =>
    exact Multiset.mem_cons_of_mem (herase hother)
  | _ => exact hmem

end Cache

end RxOs.BufCache
