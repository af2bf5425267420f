import RxOs.Core.Interaction
import RxOs.Fs.Kernel

/-!
# The operations that system calls are made of

A system call is a program whose operations are the calls it makes into log,
inode cache, inode data and file table.  Between two operations other processes
may run; an operation that would sleep is not performed until it can go on.
-/

namespace RxOs.Operations

open Function Exec Interaction Params LogState LogCommit Blocks Dinode Inode
open Kernel

inductive Op
  | beginOp
  | endOp
  | commit
  | cacheGet (inum : UInt32)
  | dupCwd
  | lock (inode : Handle)
  | unlock (inode : Handle)
  | view (inode : Handle)
  | assign (inode : Handle) (dinode : DiskInode)
  | update (inode : Handle)
  | read (inode : Handle) (offset count : UInt32)
  | write (inode : Handle) (offset : UInt32) (data : List UInt8)
  | truncate (inode : Handle)
  | allocInode (itype : InodeType)
  | putCheck (inode : Handle)
  | putTruncate (inode : Handle)
  | putFinish (inode : Handle)
  | file (fd : ℕ)
  | fdAlloc (file : VFile)
  | fdDup (fd : ℕ)
  | fdTake (fd : ℕ)
  | advance (fd total : ℕ)
  | replaceCwd (inode : Handle)
  | takeCwd
  | external
  | panic (cause : Panic)

@[reducible]
def Op.Reply : Op → Type
  | .endOp | .putCheck _ => Bool
  | .cacheGet _ | .dupCwd => Handle
  | .view _ => InodeData
  | .read _ _ _ => Except String (List UInt8)
  | .write _ _ _ => Except String ℕ
  | .allocInode _ => UInt32
  | .file _ => VFile
  | .fdAlloc _ | .external => Option ℕ
  | .fdDup _ => ℕ
  | .fdTake _ | .replaceCwd _ | .takeCwd => Option Handle
  | .panic _ => Empty
  | _ => Unit

abbrev Call := Program Op Op.Reply

/-- `end_op` up to the point where the lock is released; the reply says whether
this process has to commit. -/
def endOpLocked : FsM Bool := do
  let vol ← get
  match vol.logged.log.endOp with
  | .error cause => throw (.panic cause)
  | .ok (last, log) =>
    set { vol with
      logged := { vol.logged with log := log }
      events := vol.events ++ [Event.endOp] }
    return last

/-- The commit that the last `end_op` runs. -/
def commitLocked : FsM Unit := do
  let vol ← get
  match vol.logged.commitNoLock with
  | .error cause => throw (.panic cause)
  | .ok committed =>
    set { vol with logged :=
      { committed with log := { committed.log with commiting := false } } }

def dupCwd (proc : Proc) : KernelM Handle := do
  match ((← get).procs proc).cwd with
  | none => throw (.panic .unwrapNone)
  | some inode => cacheDup inode

def swapCwd (proc : Proc) (inode : Option Handle) : KernelM (Option Handle) := do
  let held := (← get).procs proc
  modify fun kernel => kernel.setProc proc { held with cwd := inode }
  return held.cwd

/-- How the kernel performs an operation for a process.  `answer` is the
outcome of code outside the file system. -/
def perform (proc : Proc) (answer : Option ℕ) : (op : Op) → KernelM op.Reply
  | .beginOp => onVolume beginOp
  | .endOp => onVolume endOpLocked
  | .commit => onVolume commitLocked
  | .cacheGet inum => cacheGet inum
  | .dupCwd => dupCwd proc
  | .lock inode => cacheLock inode
  | .unlock inode => cacheUnlock inode
  | .view inode => return (← get).idatas inode.index
  | .assign inode dinode => onData inode fun idata => pure ((), idata.withDinode dinode)
  | .update inode => onData inode fun idata => do
    idata.update
    return ((), idata)
  | .read inode offset count => onData inode (·.read offset count)
  | .write inode offset data => onData inode (·.write offset data)
  | .truncate inode => onData inode fun idata => return ((), ← idata.truncate)
  | .allocInode itype => onVolume (DiskInode.alloc itype)
  | .putCheck inode => putCheck inode
  | .putTruncate inode => putTruncate inode
  | .putFinish inode => releaseRef inode
  | .file fd => do
    let (_, file) ← openFile proc fd
    return ((← get).files file).1
  | .fdAlloc file => fdAlloc proc file
  | .fdDup fd => fdDup proc fd
  | .fdTake fd => fdTake proc fd
  | .advance fd total => advance proc fd total
  | .replaceCwd inode => swapCwd proc (some inode)
  | .takeCwd => swapCwd proc none
  | .external => return answer
  | .panic cause => throw (.panic cause)

/-! ## Programs that are used everywhere -/

def act (op : Op) : Call op.Reply :=
  call op

def abort {Value : Type} (cause : Panic) : Call Value :=
  .perform (.panic cause) nofun

def endOp : Call Unit := do
  let last : Bool ← act .endOp
  if last then act .commit else pure ()

/-- `InodeCache::put`, which the end of a handle's scope runs. -/
def put (inode : Handle) : Call Unit := do
  let unlinked : Bool ← act (.putCheck inode)
  if unlinked then do
    act (.putTruncate inode)
    act (.putFinish inode)
  else pure ()

/-- `put`, if there is a handle. -/
def putAll (inode : Option Handle) : Call Unit :=
  match inode with
  | none => pure ()
  | some inode => put inode

end RxOs.Operations
