import RxOs.Fs.Inode

/-!
# The inode cache and the open files

`ICACHE` keeps the inodes that are in use, one per slot, with the number of
handles on each of them.  Handles are held by processes as their current
directory, by open files, and by the local variables of kernel code.  An open
file is shared by all descriptors that refer to it.
-/

namespace RxOs.Kernel

open Function Exec Params Blocks BitMap Dinode Inode

abbrev Slot := Fin ninode

abbrev Proc := Fin nproc

instance : NeZero ninode := ⟨by decide⟩

instance : NeZero nproc := ⟨by decide⟩

/-- `Inode`: a handle on a cached inode. -/
structure Handle where
  inum : UInt32
  index : Slot
  deriving DecidableEq

structure InodeMeta where
  inum : UInt32
  refs : ℕ
  deriving DecidableEq

inductive FileType
  | none
  | pipe
  | inode
  | device
  deriving DecidableEq

structure VFile where
  ftype : FileType
  readable : Bool
  writeable : Bool
  inode : Option Handle
  offset : UInt32
  major : Int16
  deriving DecidableEq

structure ProcFiles where
  openFiles : Fin nfile → Option ℕ
  cwd : Option Handle

/-- The state that the system calls share.  `locked` are the sleep locks of the
cached inodes, `files` the open files with their strong counts. -/
structure KernelState where
  vol : Volume
  metas : Slot → InodeMeta
  idatas : Slot → InodeData
  locked : Slot → Bool
  files : ℕ → VFile × ℕ
  nextFile : ℕ
  procs : Proc → ProcFiles

/-- Kernel code between two points where it can be interrupted. -/
abbrev KernelM := EStateM Stop KernelState

namespace KernelState

def outstanding (kernel : KernelState) : ℕ :=
  kernel.vol.logged.log.outstanding

def setData (kernel : KernelState) (index : Slot) (idata : InodeData) : KernelState :=
  { kernel with idatas := update kernel.idatas index idata }

def setMeta (kernel : KernelState) (index : Slot) (imeta : InodeMeta) : KernelState :=
  { kernel with metas := update kernel.metas index imeta }

def setLocked (kernel : KernelState) (index : Slot) (held : Bool) : KernelState :=
  { kernel with locked := update kernel.locked index held }

def setProc (kernel : KernelState) (proc : Proc) (held : ProcFiles) : KernelState :=
  { kernel with procs := update kernel.procs proc held }

end KernelState

def onVolume {Value : Type} (program : FsM Value) : KernelM Value :=
  zoom KernelState.vol (fun vol kernel => { kernel with vol := vol }) program

def onData {Value : Type} (inode : Handle)
    (method : InodeData → FsM (Value × InodeData)) : KernelM Value := do
  let kernel ← get
  let (value, idata) ← onVolume (method (kernel.idatas inode.index))
  modify fun kernel => kernel.setData inode.index idata
  return value

/-! ## The inode cache -/

/-- `InodeCache::get`. -/
def cacheGet (inum : UInt32) : KernelM Handle := do
  let kernel ← get
  match (List.finRange ninode).find? fun index =>
      (kernel.metas index).inum = inum ∧ 0 < (kernel.metas index).refs with
  | some index =>
    set (kernel.setMeta index ⟨inum, (kernel.metas index).refs + 1⟩)
    return ⟨inum, index⟩
  | none =>
    match (List.finRange ninode).find? fun index => (kernel.metas index).refs = 0 with
    | some index =>
      if kernel.locked index then throw .sleep
      else if (kernel.idatas index).valid then
        throw (.panic .inodeCacheValid)
      else
        set (kernel.setMeta index ⟨inum, 1⟩)
        return ⟨inum, index⟩
    | none => throw (.panic .inodeCacheFull)

/-- `Inode::clone`. -/
def cacheDup (inode : Handle) : KernelM Handle := do
  let kernel ← get
  let imeta := kernel.metas inode.index
  set (kernel.setMeta inode.index ⟨imeta.inum, imeta.refs + 1⟩)
  return inode

/-- `Inode::lock`. -/
def cacheLock (inode : Handle) : KernelM Unit := do
  let kernel ← get
  if kernel.locked inode.index then throw .sleep
  else
    set (kernel.setLocked inode.index true)
    if (kernel.idatas inode.index).valid then pure ()
    else
      let (_, buf) ← onVolume (findInode inode.inum)
      let dinode := DiskInode.load buf (locateInodeOffset inode.inum)
      modify fun kernel => kernel.setData inode.index ⟨true, inode.inum, dinode⟩
      if dinode.itype = .empty then throw (.panic .inodeTypeEmpty)
      else pure ()

def cacheUnlock (inode : Handle) : KernelM Unit :=
  modify fun kernel => kernel.setLocked inode.index false

def releaseRef (inode : Handle) : KernelM Unit := do
  let kernel ← get
  let imeta := kernel.metas inode.index
  if imeta.refs = 0 then throw (.panic .subtractOverflow)
  else set (kernel.setMeta inode.index ⟨imeta.inum, imeta.refs - 1⟩)

/-- Whether the handle is the last one on an inode without links. -/
def KernelState.lastUnlinked (kernel : KernelState) (inode : Handle) : Bool :=
  (kernel.metas inode.index).refs = 1 ∧ (kernel.idatas inode.index).valid ∧
    (kernel.idatas inode.index).dinode.nlink ≤ 0

/-- The first part of `InodeCache::put`; the reply says whether the inode has to
be truncated before the handle goes away. -/
def putCheck (inode : Handle) : KernelM Bool := do
  let kernel ← get
  let idata := kernel.idatas inode.index
  if (kernel.metas inode.index).refs = 1 then
    if kernel.locked inode.index then throw .sleep
    else if kernel.lastUnlinked inode then
      set (kernel.setLocked inode.index true)
      return true
    else
      set (kernel.setData inode.index { idata with valid := false })
      releaseRef inode
      return false
  else
    releaseRef inode
    return false

/-- The truncation in `InodeCache::put`. -/
def putTruncate (inode : Handle) : KernelM Unit := do
  onData inode fun idata => do
    let idata ← InodeData.truncate (idata.withDinode { idata.dinode with itype := .empty })
    return ((), { idata with valid := false })
  cacheUnlock inode

/-! ## Open files -/

/-- The first descriptor that is not in use, `find_unallocated_fd`. -/
def ProcFiles.unallocated (held : ProcFiles) : Option (Fin nfile) :=
  (List.finRange nfile).find? fun fd => (held.openFiles fd).isNone

def KernelState.install (kernel : KernelState) (proc : Proc)
    (fd : Fin nfile) (file : Option ℕ) : KernelState :=
  let held := kernel.procs proc
  kernel.setProc proc { held with openFiles := update held.openFiles fd file }

def KernelState.setFile (kernel : KernelState) (file : ℕ) (entry : VFile × ℕ) : KernelState :=
  { kernel with files := update kernel.files file entry }

def openFile (proc : Proc) (fd : ℕ) : KernelM (Fin nfile × ℕ) := do
  let kernel ← get
  if h : fd < nfile then
    match (kernel.procs proc).openFiles ⟨fd, h⟩ with
    | some file => return (⟨fd, h⟩, file)
    | none => throw (.panic .unwrapNone)
  else throw (.panic .indexOutOfBounds)

/-- `fd_alloc` of a new open file. -/
def fdAlloc (proc : Proc) (file : VFile) : KernelM (Option ℕ) := do
  let kernel ← get
  match (kernel.procs proc).unallocated with
  | none => return none
  | some fd =>
    set { (kernel.setFile kernel.nextFile (file, 1)).install proc fd
        (some kernel.nextFile) with nextFile := kernel.nextFile + 1 }
    return some fd.val

/-- The body of `sys_dup`. -/
def fdDup (proc : Proc) (oldFd : ℕ) : KernelM ℕ := do
  let (_, file) ← openFile proc oldFd
  let kernel ← get
  match (kernel.procs proc).unallocated with
  | none => throw (.panic .unwrapNone)
  | some fd =>
    let entry := kernel.files file
    set ((kernel.setFile file (entry.1, entry.2 + 1)).install proc fd (some file))
    return fd.val

/-- Take a descriptor away.  The reply is the inode handle of the open file if
this was its last descriptor. -/
def fdTake (proc : Proc) (fd : ℕ) : KernelM (Option Handle) := do
  let kernel ← get
  if h : fd < nfile then
    match (kernel.procs proc).openFiles ⟨fd, h⟩ with
    | none => return none
    | some file =>
      let entry := kernel.files file
      set ((kernel.setFile file (entry.1, entry.2 - 1)).install proc ⟨fd, h⟩ none)
      return if entry.2 ≤ 1 then entry.1.inode else none
  else throw (.panic .indexOutOfBounds)

def advance (proc : Proc) (fd total : ℕ) : KernelM Unit := do
  let (_, file) ← openFile proc fd
  let kernel ← get
  let entry := kernel.files file
  if 4294967296 ≤ entry.1.offset.toNat + total then
    throw (.panic .addOverflow)
  else
    set (kernel.setFile file ({ entry.1 with offset := entry.1.offset + .ofNat total }, entry.2))

/-- What `fork` copies to a child that holds nothing: the descriptors, and the
current directory with one more handle. -/
def forkFiles (parent child : Proc) : KernelM Unit := do
  let kernel ← get
  let held := kernel.procs parent
  set { kernel.setProc child held with
    files := fun file => ((kernel.files file).1, (kernel.files file).2 +
        ((List.finRange nfile).filter fun fd => held.openFiles fd = some file).length) }
  match held.cwd with
  | none => pure ()
  | some inode => discard (cacheDup inode)

end RxOs.Kernel
