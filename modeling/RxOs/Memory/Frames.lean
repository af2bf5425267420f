import RxOs.Fs.Kernel
import RxOs.Memory.PageTable

/-!
# Physical memory

The pages between the end of the kernel and `PHYSTOP`, the allocator that hands
them out with a count for each of them, and the address spaces of the processes.
Pages are named by their physical page numbers.
-/

namespace RxOs.Frames

open Function Exec PageTable
open Kernel (Proc)

inductive Panic
  | outOfMemory
  | remap
  | notAligned
  | notMapped
  | noEntry
  | notPresent
  | wildEntry
  | unwrapNone
  | invalidAddress
  | sliceRange
  | sliceLength
  | mapFailed
  deriving DecidableEq, Repr

/-- Number of pages, `MEM_SIZE / PGSIZE`. -/
def npages : ℕ := 1048576

/-- The page number of `KERNEL_BASE`. -/
def kernelPage : ℕ := 524288

def InRange (frame : ℕ) : Prop :=
  kernelPage ≤ frame ∧ frame < kernelPage + npages

/-- What `ProcData` keeps of an address space.  `root` and `trapframe` are the
pages behind the boxes of the page table and of the trap frame. -/
structure Space where
  size : ℕ
  root : ℕ
  trapframe : Option ℕ
  table : Table

/-- The allocator, the contents of the pages, the address spaces, and the pages
that other kernel data live in. -/
structure Memory where
  free : List ℕ
  count : ℕ → ℤ
  bytes : ℕ → ℕ → UInt8
  spaces : Proc → Option Space
  kernel : Fin npages → Option ℕ

abbrev MemM := EStateM Panic Memory

def unwrap {Value : Type} : Option Value → MemM Value
  | some value => return value
  | none => throw .unwrapNone

/-- `alloc`, through `new_zeroed`. -/
def alloc : MemM ℕ := do
  let memory ← get
  match memory.free with
  | [] => throw .outOfMemory
  | frame :: rest =>
    set { memory with
      free := rest
      count := update memory.count frame 1
      bytes := update memory.bytes frame fun _ => 0 }
    return frame

/-- The index of a page in the array of counts, `(pa - KERNEL_BASE) / PGSIZE`. -/
def checkIndex (frame : ℕ) : MemM Unit :=
  if frame < kernelPage ∨ kernelPage + npages ≤ frame then
    throw .invalidAddress
  else return

/-- `dealloc`: the page becomes free when its count reaches zero. -/
def dealloc (frame : ℕ) : MemM Unit := do
  checkIndex frame
  modify fun memory =>
    { memory with
      count := update memory.count frame (memory.count frame - 1)
      free :=
        if memory.count frame - 1 = 0 then frame :: memory.free
        else memory.free }

def addCount (frame : ℕ) : MemM Unit := do
  checkIndex frame
  modify fun memory =>
    { memory with
      count := update memory.count frame (memory.count frame + 1) }

def getCount (frame : ℕ) : MemM ℤ := do
  checkIndex frame
  let memory ← get
  return memory.count frame

def copyPage (source target : ℕ) : MemM Unit :=
  modify fun memory =>
    { memory with
      bytes := update memory.bytes target (memory.bytes source) }

def space (proc : Proc) : MemM Space := do
  let memory ← get
  unwrap (memory.spaces proc)

def setSpace (proc : Proc) (space : Option Space) : MemM Unit :=
  modify fun memory => { memory with spaces := update memory.spaces proc space }

def modifyTable (proc : Proc) (change : Table → Table) : MemM Unit := do
  let found ← space proc
  setSpace proc (some { found with table := change found.table })

/-! ## Specifications -/

def Memory.taken (memory : Memory) (frame : ℕ) (rest : List ℕ) : Memory :=
  { memory with
    free := rest
    count := update memory.count frame 1
    bytes := update memory.bytes frame fun _ => 0 }

def Memory.dropped (memory : Memory) (frame : ℕ) : Memory :=
  { memory with
    count := update memory.count frame (memory.count frame - 1)
    free :=
      if memory.count frame - 1 = 0 then frame :: memory.free
      else memory.free }

variable {Value : Type} {memory : Memory} {proc : Proc} {found : Space} {frame : ℕ}
variable {stopped : Panic → Memory → Prop}

theorem ensures_unwrap {value : Option Value} {returned : Value → Memory → Prop} :
    Ensures (unwrap value) memory returned stopped ↔
      (value = none → stopped .unwrapNone memory) ∧
        ∀ found, value = some found → returned found memory := by
  cases value with
  | none =>
    rw [unwrap, ensures_throw]
    simp
  | some found =>
    rw [unwrap, ensures_pure]
    simp

theorem ensures_space {returned : Space → Memory → Prop} :
    Ensures (space proc) memory returned stopped ↔
      (memory.spaces proc = none → stopped .unwrapNone memory) ∧
        ∀ found, memory.spaces proc = some found → returned found memory :=
  ensures_unwrap

theorem ensures_space_found {returned : Space → Memory → Prop}
    (hfound : memory.spaces proc = some found) :
    Ensures (space proc) memory returned stopped ↔ returned found memory := by
  rw [ensures_space, hfound]
  simp

theorem ensures_modifyTable {change : Table → Table} {returned : Unit → Memory → Prop}
    (hfound : memory.spaces proc = some found) :
    Ensures (modifyTable proc change) memory returned stopped ↔
      returned () { memory with
        spaces := update memory.spaces proc (some { found with table := change found.table }) } := by
  rw [modifyTable, ensures_bind, ensures_space_found hfound]
  rfl

theorem ensures_alloc {returned : ℕ → Memory → Prop} :
    Ensures alloc memory returned stopped ↔ (memory.free = [] → stopped .outOfMemory memory) ∧
      ∀ frame rest, memory.free = frame :: rest → returned frame (memory.taken frame rest) := by
  simp only [alloc, ensures_bind, ensures_get]
  cases hfree : memory.free with
  | nil => simp
  | cons frame rest =>
    simp only [ensures_bind, ensures_set, ensures_pure]
    simp [Memory.taken]

theorem ensures_checkIndex {returned : Unit → Memory → Prop} :
    Ensures (checkIndex frame) memory returned stopped ↔
      (¬InRange frame → stopped .invalidAddress memory) ∧ (InRange frame → returned () memory) := by
  have hindex : (frame < kernelPage ∨ kernelPage + npages ≤ frame) ↔ ¬InRange frame := by
    unfold InRange
    omega
  rw [checkIndex, ensures_ite, hindex, not_not]
  rfl

theorem ensures_dealloc {returned : Unit → Memory → Prop} :
    Ensures (dealloc frame) memory returned stopped ↔
      (¬InRange frame → stopped .invalidAddress memory) ∧
        (InRange frame → returned () (memory.dropped frame)) := by
  rw [dealloc, ensures_bind, ensures_checkIndex]
  rfl

theorem ensures_addCount {returned : Unit → Memory → Prop} :
    Ensures (addCount frame) memory returned stopped ↔
      (¬InRange frame → stopped .invalidAddress memory) ∧
        (InRange frame → returned () { memory with
          count := update memory.count frame (memory.count frame + 1) }) := by
  rw [addCount, ensures_bind, ensures_checkIndex]
  rfl

theorem ensures_getCount {returned : ℤ → Memory → Prop} :
    Ensures (getCount frame) memory returned stopped ↔
      (¬InRange frame → stopped .invalidAddress memory) ∧
        (InRange frame → returned (memory.count frame) memory) := by
  rw [getCount, ensures_bind, ensures_checkIndex]
  rfl

end RxOs.Frames
