import RxOs.Memory.UserCopy

/-!
# Address spaces

The methods of `PageTable` that build, share and take down the address spaces of
user processes, and the kernel functions that use them: `user_init`, `fork`,
`grow_proc`, the store page fault and `free_proc`.  Each works on the page table
of a process in the memory state.
-/

namespace RxOs.AddressSpace

open Function PageTable Frames
open Kernel (Proc)

/-! ## Walking and mapping -/

/-- The last two levels of `PageTable::translate` with allocation. -/
def walkMid (proc : Proc) (va : ℕ) : MemM (Option Place) := do
  let found ← space proc
  let i := pageNum va 2
  let j := pageNum va 1
  if (found.table.mid i j).v then
    if (found.table.mid i j).isLeaf then return some (.mid i j)
    else return some (.bottom i j (pageNum va 0))
  else do
    let frame ← alloc
    modifyTable proc fun table => table.hang (.mid i j) frame
    return some (.bottom i j (pageNum va 0))

/-- `PageTable::translate` with allocation. -/
def walk (proc : Proc) (va : ℕ) : MemM (Option Place) := do
  if va > maxVa then return none
  else do
    let found ← space proc
    let i := pageNum va 2
    if (found.table.top i).v then
      if (found.table.top i).isLeaf then return some (.top i)
      else walkMid proc va
    else do
      let frame ← alloc
      modifyTable proc fun table => table.hang (.top i) frame
      walkMid proc va

/-- One turn of the loop in `PageTable::map`. -/
def mapPage (proc : Proc) (va pa : ℕ) (perm : Pte) : MemM Bool := do
  let place ← walk proc va
  match place with
  | none => return false
  | some place => do
    let found ← space proc
    if (found.table.get place).v then throw .remap
    else do
      modifyTable proc fun table => table.set place (perm.withPerm pa)
      return true

/-- The loop of `PageTable::map`, for the given number of pages. -/
def mapPages (proc : Proc) (perm : Pte) : ℕ → ℕ → ℕ → MemM Bool
  | 0, _, _ => return true
  | pages + 1, va, pa => do
    let mapped ← mapPage proc va pa perm
    if mapped then mapPages proc perm pages (addPage va) (pa + 1)
    else return false

def map (proc : Proc) (va pa size : ℕ) (perm : Pte) : MemM Bool :=
  mapPages proc perm ((pageRoundUp (va + size) - pageRoundDown va) / pgSize) (pageRoundDown va) pa

/-- One turn of the loop in `PageTable::uunmap`.  The test for an entry that is
not a leaf complements the flags before it compares them, and never fires. -/
def unmapPage (proc : Proc) (va : ℕ) (free : Bool) : MemM Unit := do
  let found ← space proc
  match found.table.lookup va with
  | none => throw .noEntry
  | some place =>
    if (found.table.get place).v then
      if free then do
        dealloc (found.table.get place).ppn
        modifyTable proc fun table => table.set place Pte.zero
      else return
    else throw .notMapped

/-- The loop of `PageTable::uunmap`. -/
def unmapPages (proc : Proc) (free : Bool) : ℕ → ℕ → MemM Unit
  | 0, _ => return
  | pages + 1, va => do
    unmapPage proc va free
    unmapPages proc free pages (addPage va)

def uunmap (proc : Proc) (va pages : ℕ) (free : Bool) : MemM Unit :=
  if va % pgSize ≠ 0 then throw .notAligned
  else unmapPages proc free pages va

/-! ## Growing and shrinking -/

/-- `PageTable::udealloc`: the new size. -/
def udealloc (proc : Proc) (oldSize newSize : ℕ) : MemM ℕ := do
  if newSize ≥ oldSize then return oldSize
  else if pageRoundUp newSize < pageRoundUp oldSize then do
    uunmap proc (pageRoundUp newSize) ((pageRoundUp oldSize - pageRoundUp newSize) / pgSize) true
    return newSize
  else return newSize

/-- The loop of `PageTable::ualloc`. -/
def uallocPages (proc : Proc) (start : ℕ) : ℕ → ℕ → MemM Bool
  | 0, _ => return true
  | pages + 1, cur => do
    let mem ← alloc
    let mapped ← map proc cur mem pgSize Pte.permRWXU
    if mapped then uallocPages proc start pages (addPage cur)
    else do
      dealloc mem
      let _ ← udealloc proc cur start
      return false

/-- `PageTable::ualloc`: the new size. -/
def ualloc (proc : Proc) (oldSize newSize : ℕ) : MemM (Option ℕ) := do
  if newSize < oldSize then return some oldSize
  else do
    let start := pageRoundUp oldSize
    let grown ← uallocPages proc start ((newSize - start + pgSize - 1) / pgSize) start
    return if grown then some newSize else none

def uallocStack (proc : Proc) : MemM Bool := do
  let mem ← alloc
  let stack ← map proc ustackBase mem pgSize Pte.permRWU
  if stack then do
    let guard ← alloc
    let guarded ← map proc (ustackBase - pgSize) guard pgSize Pte.permR
    if guarded then return true
    else do
      uunmap proc ustackBase 1 true
      dealloc guard
      return false
  else do
    dealloc mem
    return false

def ufreeStack (proc : Proc) : MemM Unit :=
  uunmap proc (ustackBase - pgSize) 2 true

def ufree (proc : Proc) (size : ℕ) : MemM Unit :=
  if size > 0 then uunmap proc 0 (pageRoundUp size / pgSize) true else return

/-! ## Copying and sharing -/

/-- One turn of the loop in `PageTable::ucopy`. -/
def copyOnePage (parent child : Proc) (va : ℕ) : MemM Bool := do
  let found ← space parent
  match found.table.lookup va with
  | none => throw .noEntry
  | some place =>
    let pte := found.table.get place
    if pte.v then do
      let frame ← alloc
      copyPage pte.ppn frame
      let mapped ← map child va frame pgSize pte
      if mapped then return true
      else do
        uunmap child 0 (va / pgSize) true
        dealloc frame
        return false
    else throw .notPresent

/-- One turn of the loop in `PageTable::ucopy_nocopy`. -/
def shareOnePage (parent child : Proc) (va : ℕ) : MemM Bool := do
  let found ← space parent
  match found.table.lookup va with
  | none => throw .noEntry
  | some place =>
    let pte := found.table.get place
    if pte.v then do
      modifyTable parent fun table => table.set place pte.toCowPage
      addCount pte.ppn
      let mapped ← map child va pte.ppn pgSize pte.toCowPage
      if mapped then return true
      else do
        uunmap child 0 (va / pgSize) true
        return false
    else throw .notPresent

/-- The loop `while va != stop` over pages, which stops at the first failure.
Beyond `MAXVA` nothing is mapped and every turn panics, so that the number of
turns is never used up. -/
def pagesUntil (turn : ℕ → MemM Bool) (stop : ℕ) : ℕ → ℕ → MemM Bool
  | 0, _ => throw .noEntry
  | turns + 1, va =>
    if va = stop then return true
    else do
      let done ← turn va
      if done then pagesUntil turn stop turns (addPage va) else return false

/-- The loop of `PageTable::ucopy` and `PageTable::ucopy_nocopy`. -/
def untilEnd (turn : ℕ → MemM Bool) (va size : ℕ) : MemM Bool :=
  pagesUntil turn (size + va) (vpnCount + 1) va

/-- `PageTable::ucopy`: whether the result is `Ok`. -/
def ucopy (parent child : Proc) (va size : ℕ) : MemM Bool :=
  untilEnd (copyOnePage parent child) va size

/-- `PageTable::ucopy_nocopy`: whether the result is `Ok`. -/
def ucopyNocopy (parent child : Proc) (va size : ℕ) : MemM Bool :=
  untilEnd (shareOnePage parent child) va size

def ucopyStack (parent child : Proc) : MemM Unit := do
  let copied ← ucopy parent child (ustackBase - pgSize) (pgSize + pgSize)
  if copied then return else throw .unwrapNone

/-- `PageTable::uload_page`: whether the result is `Ok`. -/
def uloadPage (proc : Proc) (va : ℕ) : MemM Bool := do
  let found ← space proc
  match found.table.lookup va with
  | none => return false
  | some place => do
    let pte := found.table.get place
    let count ← getCount pte.ppn
    if count = 1 then do
      modifyTable proc fun table => table.set place pte.addWriteBit
      return true
    else do
      let frame ← alloc
      copyPage pte.ppn frame
      modifyTable proc fun table => table.set place (pte.addWriteBit.withPerm frame)
      dealloc pte.ppn
      return true

/-! ## Processes -/

/-- The page of the kernel image with the trampoline code. -/
def trampolinePage : ℕ := kernelPage

/-- The part of `alloc_proc` that makes the trap frame and the page table.  Both
addresses are below `MAXVA`, so `map` does not fail here. -/
def allocProc (proc : Proc) : MemM Unit := do
  let frame ← alloc
  let root ← alloc
  setSpace proc (some ⟨0, root, some frame, Table.empty⟩)
  let _ ← map proc trampoline trampolinePage pgSize Pte.permRX
  let _ ← map proc trapframe frame pgSize Pte.permRW
  return

def setSize (proc : Proc) (size : ℕ) : MemM Unit := do
  let found ← space proc
  setSpace proc (some { found with size := size })

/-- `user_init`, with `uinit` of the program `code`. -/
def userInit (proc : Proc) (code : List UInt8) : MemM Unit := do
  allocProc proc
  let mem ← alloc
  let _ ← map proc 0 mem pgSize Pte.permRWXU
  let _ ← uallocStack proc
  modify fun memory => { memory with bytes := UserCopy.writePage memory.bytes mem 0 code }
  setSize proc pgSize

/-- The size of `Trapframe`. -/
def trapframeSize : ℕ := 288

/-- The offset of `ax[0]` in `Trapframe`. -/
def a0Offset : ℕ := 112

/-- `fork` copies the trap frame of the parent and sets `ax[0]` to zero. -/
def copyTrapframe (source target : ℕ) : MemM Unit :=
  modify fun memory =>
    { memory with
      bytes := update memory.bytes target fun offset =>
        if a0Offset ≤ offset ∧ offset < a0Offset + 8 then 0
        else if offset < trapframeSize then memory.bytes source offset
        else memory.bytes target offset }

/-- The memory part of `Process::fork`. -/
def fork (parent child : Proc) : MemM Unit := do
  allocProc child
  let found ← space parent
  let copied ← ucopyNocopy parent child 0 found.size
  if copied then do
    ucopyStack parent child
    let source ← unwrap found.trapframe
    let target ← space child
    let target ← unwrap target.trapframe
    copyTrapframe source target
    setSize child found.size
  else throw .unwrapNone

/-- `Process::grow_proc`: whether the result is `Ok`. -/
def growProc (proc : Proc) (count : ℤ) : MemM Bool := do
  let found ← space proc
  if count < 0 then do
    let nsz := ((found.size : ℤ) + count) % (usizeSize : ℤ)
    let size ← udealloc proc found.size nsz.toNat
    setSize proc size
    return true
  else if count = 0 then return true
  else do
    let size ← ualloc proc found.size (found.size + count.toNat)
    match size with
    | some size => do
      setSize proc size
      return true
    | none => return false

@[irreducible]
def entries : List Index := List.finRange ptEntries

theorem mem_entries (i : Index) : i ∈ entries := by
  unfold entries
  exact List.mem_finRange i

theorem nodup_entries : entries.Nodup := by
  unfold entries
  exact List.nodup_finRange ptEntries

/-- The drop of a table of the last level: an entry that is valid and looks like
a pointer would be followed. -/
def dropBottom (table : Table) (i j : Index) : MemM Unit :=
  if entries.any fun k => (table.bottom i j k).v && !(table.bottom i j k).isLeaf then
    throw .wildEntry
  else dealloc (table.mid i j).ppn

def dropMid (table : Table) (i : Index) : MemM Unit := do
  entries.forM fun j =>
    if (table.mid i j).v && !(table.mid i j).isLeaf then dropBottom table i j
    else return
  dealloc (table.top i).ppn

/-- `PageTable::drop` for the root. -/
def dropTable (table : Table) : MemM Unit :=
  entries.forM fun i =>
    if (table.top i).v && !(table.top i).isLeaf then dropMid table i
    else return

def procFreePagetable (proc : Proc) (size : ℕ) : MemM Unit := do
  ufreeStack proc
  uunmap proc trampoline 1 false
  uunmap proc trapframe 1 false
  ufree proc size

/-- The memory part of `Process::free_proc`. -/
def freeProc (proc : Proc) : MemM Unit := do
  let found ← space proc
  let frame ← unwrap found.trapframe
  dealloc frame
  setSpace proc (some { found with trapframe := none })
  procFreePagetable proc found.size
  let found ← space proc
  dropTable found.table
  dealloc found.root
  setSpace proc none

end RxOs.AddressSpace
