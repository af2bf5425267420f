import RxOs.Syscall.Directory

/-!
# The system calls on files

`syscall/file.rs`, `VFile::read` and `VFile::write`, `exec` and the part of
`exit` that gives back files.  A path argument is the contents of the path
buffer, a write argument the bytes found at the user's address.
-/

namespace RxOs.File

open Interaction Params Dinode Inode Kernel Operations Directory

abbrev SysResult := Except Unit ℕ

def outside : Call SysResult := do
  let answer : Option ℕ ← act .external
  match answer with
  | some value => pure (.ok value)
  | none => pure (.error ())

/-- `copy_from_kernel` to an address of the user.  It drops the result of
`copy_out`, which panics if a page is not mapped. -/
def copyFromKernel : Call SysResult := do
  let copied : Option ℕ ← act .external
  match copied with
  | some _ => pure (.ok 0)
  | none => abort .unwrapNone

/-! ## Reading and writing -/

/-- A device in `VFile::read` and `VFile::write`.  The table has `NDEV` entries,
but the check lets the number `NDEV` pass. -/
def device (major : Int16) : Call SysResult :=
  if major < 0 ∨ (ndev : ℤ) < major.toInt then pure (.error ())
  else if major.toInt = ndev then abort .indexOutOfBounds
  else outside

/-- `sys_read`, with the body of `VFile::read`. -/
def sysRead (fd len : ℕ) : Call SysResult := do
  let file : VFile ← act (.file fd)
  if !file.readable then abort .fileNotReadable
  else
    match file.ftype, file.inode with
    | .none, _ => abort .fileInvalid
    | .pipe, _ => outside
    | .device, _ => device file.major
    | .inode, none => abort .unwrapNone
    | .inode, some inode => do
      act (.lock inode)
      let file : VFile ← act (.file fd)
      let outcome : Except String (List UInt8) ←
        act (.read inode file.offset (.ofNat len))
      match outcome with
      | .error _ => do
        act (.unlock inode)
        pure (.error ())
      | .ok bytes => do
        act (.advance fd bytes.length)
        act (.unlock inode)
        pure (.ok bytes.length)

/-- The most bytes that one transaction of `VFile::write` writes. -/
def maxWrite : ℕ := (maxOpBlocks - 1 - 1 - 2) / 2 * bsize

/-- The loop of `VFile::write`. -/
def writeChunks (fd : ℕ) (inode : Handle) (data : List UInt8) :
    (fuel count : ℕ) → Call SysResult
  | 0, count => pure (.ok count)
  | fuel + 1, count =>
    if data.length ≤ count then pure (.ok count)
    else do
      act .beginOp
      act (.lock inode)
      let file : VFile ← act (.file fd)
      let outcome : Except String ℕ ← act (.write inode file.offset
        ((data.drop count).take maxWrite))
      match outcome with
      | .error _ => do
        act (.unlock inode)
        pure (.error ())
      | .ok total => do
        act (.unlock inode)
        endOp
        act (.advance fd total)
        writeChunks fd inode data fuel (count + total)

/-- `sys_write`, with the body of `VFile::write`. -/
def sysWrite (fd : ℕ) (data : List UInt8) : Call SysResult := do
  let file : VFile ← act (.file fd)
  if !file.writeable then abort .fileNotWriteable
  else
    match file.ftype, file.inode with
    | .none, _ => abort .fileInvalid
    | .pipe, _ => outside
    | .device, _ => device file.major
    | .inode, none =>
      if data.length = 0 then pure (.ok 0)
      else do
        act .beginOp
        abort .unwrapNone
    | .inode, some inode => writeChunks fd inode data data.length 0

/-! ## Descriptors -/

def sysDup (fd : ℕ) : Call SysResult := do
  let newFd : ℕ ← act (.fdDup fd)
  pure (.ok newFd)

def sysClose (fd : ℕ) : Call SysResult := do
  let inode : Option Handle ← act (.fdTake fd)
  putAll inode
  pure (.ok 0)

def pipeEnd (writeable : Bool) : VFile where
  ftype := .pipe
  readable := !writeable
  writeable := writeable
  inode := none
  offset := 0
  major := 0

def sysPipe : Call SysResult := do
  let rf : Option ℕ ← act (.fdAlloc (pipeEnd false))
  match rf with
  | none => pure (.error ())
  | some _ => do
    let wf : Option ℕ ← act (.fdAlloc (pipeEnd true))
    match wf with
    | none => pure (.error ())
    | some _ => copyFromKernel

def sysFstat (fd : ℕ) : Call SysResult := do
  let file : VFile ← act (.file fd)
  match file.ftype, file.inode with
  | .none, _ => pure (.error ())
  | .pipe, _ => pure (.error ())
  | _, none => abort .unwrapNone
  | _, some inode => do
    act (.lock inode)
    act (.unlock inode)
    copyFromKernel

/-! ## Paths -/

/-- The inode that `sys_open` opens; without one the operation is closed. -/
def openInode (path : List UInt8) (openMode : ℕ) : Call (Option Handle) :=
  if openMode.testBit 9 then do
    match ← create path .file 0 0 with
    | .ok inode => pure (some inode)
    | .error _ => do
      endOp
      pure none
  else do
    match ← namei path with
    | none => do
      endOp
      pure none
    | some inode => do
      act (.lock inode)
      let idata : InodeData ← act (.view inode)
      act (.unlock inode)
      if idata.dinode.itype = .directory ∧ openMode ≠ 0 then do
        endOp
        put inode
        pure none
      else pure (some inode)

/-- The open file that `sys_open` makes. -/
def openedFile (inode : Handle) (itype : InodeType) (openMode : ℕ) : VFile where
  ftype := if itype = .device then .device else .inode
  readable := !openMode.testBit 0 || openMode.testBit 1
  writeable := openMode.testBit 0 || openMode.testBit 1
  inode := some inode
  offset := 0
  major := 0

def sysOpen (path : List UInt8) (openMode : ℕ) : Call SysResult := do
  act .beginOp
  match ← openInode path openMode with
  | none => pure (.error ())
  | some inode => do
    act (.lock inode)
    let idata : InodeData ← act (.view inode)
    (if openMode.testBit 10 ∧ idata.dinode.itype = .file then
      act (.truncate inode)
    else pure () : Call Unit)
    act (.unlock inode)
    endOp
    let fd : Option ℕ ←
      act (.fdAlloc (openedFile inode idata.dinode.itype openMode))
    match fd with
    | some fd => pure (.ok fd)
    | none => do
      put inode
      pure (.error ())

def sysMknod (path : List UInt8) (major minor : Int16) : Call SysResult := do
  act .beginOp
  match ← create path .device major minor with
  | .ok inode => do
    endOp
    put inode
    pure (.ok 0)
  | .error _ => do
    endOp
    pure (.error ())

def sysMkdir (path : List UInt8) : Call SysResult := do
  act .beginOp
  match ← create path .directory 0 0 with
  | .ok inode => do
    put inode
    endOp
    pure (.ok 0)
  | .error _ => do
    endOp
    pure (.error ())

def sysChdir (path : List UInt8) : Call SysResult := do
  act .beginOp
  match ← namei path with
  | none => do
    endOp
    pure (.error ())
  | some inode => do
    act (.lock inode)
    let idata : InodeData ← act (.view inode)
    act (.unlock inode)
    if idata.dinode.itype = .directory then do
      let old : Option Handle ← act (.replaceCwd inode)
      putAll old
      endOp
      pure (.ok 0)
    else do
      put inode
      endOp
      pure (.error ())

/-- The name is `.` or `..`. -/
def isDots (name : List UInt8) : Bool :=
  name.getD 0 0 = 46 ∧ (name.getD 1 0 = 0 ∨ (name.getD 1 0 = 46 ∧ name.getD 2 0 = 0))

/-- `nlink += step` on a locked inode. -/
def addNlink (inode : Handle) (step : Int16) : Call Unit := do
  let idata : InodeData ← act (.view inode)
  act (.assign inode { idata.dinode with nlink := idata.dinode.nlink + step })

/-- The part of `sys_unlink` for an entry that was found. -/
def unlinkInode (parent inode : Handle) : Call SysResult := do
  act (.lock inode)
  let idata : InodeData ← act (.view inode)
  let occupied ← (if idata.dinode.itype = .directory then do
      let empty ← isDirEmpty inode
      pure (!empty)
    else pure false : Call Bool)
  if occupied then do
    act (.unlock parent)
    act (.unlock inode)
    endOp
    put inode
    put parent
    pure (.error ())
  else do
    (if idata.dinode.itype = .directory then do
      addNlink parent (-1)
      act (.update parent)
    else pure () : Call Unit)
    act (.unlock parent)
    addNlink inode (-1)
    act (.update inode)
    act (.unlock inode)
    endOp
    put inode
    put parent
    pure (.ok 0)

/-- The part of `sys_unlink` behind the look-up of the parent. -/
def unlinkIn (parent : Handle) (name : List UInt8) : Call SysResult := do
  act (.lock parent)
  if isDots name then do
    act (.unlock parent)
    endOp
    put parent
    pure (.error ())
  else do
    match ← dirLookup parent name with
    | none => do
      act (.unlock parent)
      endOp
      put parent
      pure (.error ())
    | some inode => unlinkInode parent inode

/-- `sys_unlink`.  When the parent is not found, the operation that was opened
stays open. -/
def sysUnlink (path : List UInt8) : Call SysResult := do
  act .beginOp
  match ← nameiParent path with
  | (none, _) => pure (.error ())
  | (some parent, name) => unlinkIn parent name

/-- The part of `sys_link` behind the look-up of the new parent. -/
def linkIn (inode parent : Handle) (name : List UInt8) : Call SysResult := do
  act (.lock parent)
  let idata : InodeData ← act (.view parent)
  let refused ← (if idata.dinode.itype ≠ .directory then pure true
    else do
      let linked ← dirLink parent name inode.inum
      pure linked.isOk : Call Bool)
  if refused then do
    act (.unlock parent)
    addNlink inode (-1)
    act (.unlock inode)
    endOp
    put parent
    put inode
    pure (.error ())
  else do
    act (.update inode)
    act (.unlock inode)
    endOp
    act (.unlock parent)
    put parent
    put inode
    pure (.ok 0)

def sysLink (oldPath newPath : List UInt8) : Call SysResult := do
  act .beginOp
  match ← namei oldPath with
  | none => do
    endOp
    pure (.error ())
  | some inode => do
    act (.lock inode)
    let idata : InodeData ← act (.view inode)
    if idata.dinode.itype = .directory then do
      act (.unlock inode)
      endOp
      put inode
      pure (.error ())
    else do
      addNlink inode 1
      match ← nameiParent newPath with
      | (none, _) => do
        addNlink inode (-1)
        act (.unlock inode)
        endOp
        put inode
        pure (.error ())
      | (some parent, name) => linkIn inode parent name

/-! ## Executing a file -/

/-- A little-endian number in a record. -/
def leField (bytes : List UInt8) (offset count : ℕ) : ℕ :=
  ((bytes.drop offset).take count).foldr (fun byte rest => byte.toNat + 256 * rest) 0

def pgsize : ℕ := 4096

/-- The failing exits of `exec` inside its operation. -/
def execFail (inode : Handle) : Call SysResult := do
  act (.unlock inode)
  endOp
  put inode
  pure (.error ())

/-- The loop of `load_seg`. -/
def loadSeg (inode : Handle) (offset size : ℕ) :
    (fuel copySize : ℕ) → Call Bool
  | 0, _ => pure true
  | fuel + 1, copySize =>
    if size ≤ copySize then pure true
    else do
      let pa : Option ℕ ← act .external
      match pa with
      | none => abort .unwrapNone
      | some _ => do
        let outcome : Except String (List UInt8) ← act (.read inode (.ofNat (offset + copySize))
          (.ofNat (min (size - copySize) pgsize)))
        match outcome with
        | .error _ => pure false
        | .ok _ => loadSeg inode offset size fuel (copySize + pgsize)

/-- The loop of `exec` over the program headers; `false` is a failing exit. -/
def loadSegments (inode : Handle) : (phnum off : ℕ) → Call Bool
  | 0, _ => pure true
  | phnum + 1, off => do
    let outcome : Except String (List UInt8) ←
      act (.read inode (.ofNat off) 56)
    match outcome with
    | .error _ => pure false
    | .ok ph =>
      if leField ph 0 4 ≠ 1 then loadSegments inode phnum (off + 56)
      else if leField ph 40 8 < leField ph 32 8 then pure false
      else if 2 ^ 64 ≤ leField ph 16 8 + leField ph 40 8 then pure false
      else do
        let allocated : Option ℕ ← act .external
        match allocated with
        | none => pure false
        | some _ =>
          if leField ph 16 8 % pgsize ≠ 0 then pure false
          else do
            let loaded ← loadSeg inode (leField ph 8 8) (leField ph 32 8) (leField ph 32 8) 0
            if loaded then loadSegments inode phnum (off + 56)
            else pure false

/-- `exec` behind the look-up of the file. -/
def execInode (inode : Handle) : Call SysResult := do
  act (.lock inode)
  let outcome : Except String (List UInt8) ← act (.read inode 0 64)
  match outcome with
  | .error _ => execFail inode
  | .ok elf =>
    if leField elf 0 4 ≠ 0x464C457F then execFail inode
    else do
      let pagetable : Option ℕ ← act .external
      match pagetable with
      | none => abort .unwrapNone
      | some _ => do
        let loaded ← loadSegments inode (leField elf 56 2) (leField elf 32 8)
        if loaded then do
          act (.unlock inode)
          endOp
          let result ← outside
          put inode
          pure result
        else execFail inode

/-- `sys_exec`, with the body of `exec`.  When the file is not found, the
operation that was opened stays open. -/
def sysExec (path : List UInt8) (argc : ℕ) : Call SysResult :=
  if maxArg ≤ argc then pure (.error ())
  else do
    act .beginOp
    match ← namei path with
    | none => pure (.error ())
    | some inode => execInode inode

/-! ## Exit -/

def closeAll : List ℕ → Call Unit
  | [] => pure ()
  | fd :: fds => do
    let inode : Option Handle ← act (.fdTake fd)
    putAll inode
    closeAll fds

/-- `exit`, as far as it concerns files. -/
def sysExit : Call SysResult := do
  closeAll (List.range nfile)
  act .beginOp
  let cwd : Option Handle ← act .takeCwd
  putAll cwd
  endOp
  pure (.ok 0)

/-! ## The table of system calls -/

inductive Syscall
  | dup (fd : ℕ)
  | read (fd len : ℕ)
  | write (fd : ℕ) (data : List UInt8)
  | pipe
  | open (path : List UInt8) (openMode : ℕ)
  | exec (path : List UInt8) (argc : ℕ)
  | mknod (path : List UInt8) (major minor : Int16)
  | close (fd : ℕ)
  | fstat (fd : ℕ)
  | chdir (path : List UInt8)
  | mkdir (path : List UInt8)
  | unlink (path : List UInt8)
  | link (oldPath newPath : List UInt8)
  | exit
  deriving DecidableEq

/-- `Syscall::syscall`. -/
def Syscall.program : Syscall → Call SysResult
  | .dup fd => sysDup fd
  | .read fd len => sysRead fd len
  | .write fd data => sysWrite fd data
  | .pipe => sysPipe
  | .open path openMode => sysOpen path openMode
  | .exec path argc => sysExec path argc
  | .mknod path major minor => sysMknod path major minor
  | .close fd => sysClose fd
  | .fstat fd => sysFstat fd
  | .chdir path => sysChdir path
  | .mkdir path => sysMkdir path
  | .unlink path => sysUnlink path
  | .link oldPath newPath => sysLink oldPath newPath
  | .exit => sysExit

end RxOs.File
