import RxOs.Core.WriteTrace
import RxOs.Fs.Params

/-!
# The disk behind the buffer cache

Kernel code never touches the disk directly: it obtains a buffer with
`BCache::read`, changes the data in place and writes the buffer out with
`Buf::write`.  `BufferedDisk` keeps the contents of the disk, the contents of
the buffers that have been changed since boot, and the history of the block
writes, each of which is atomic.
-/

namespace RxOs.Buffers

open Function WriteTrace Params

/-- Disk, changed buffers and the block writes made so far. -/
structure BufferedDisk where
  disk : ℕ → Block
  cache : ℕ → Option Block
  writes : List (ℕ × Block)

namespace BufferedDisk

def boot (disk : ℕ → Block) : BufferedDisk where
  disk := disk
  cache := fun _ => none
  writes := []

/-- `BCache::read`: the buffer of the block, loaded from disk on a miss. -/
def read (bufs : BufferedDisk) (blockno : ℕ) : Block :=
  (bufs.cache blockno).getD (bufs.disk blockno)

def modify (bufs : BufferedDisk) (blockno : ℕ) (data : Block) : BufferedDisk :=
  { bufs with cache := update bufs.cache blockno (some data) }

/-- `Buf::write`: one atomic block write. -/
def write (bufs : BufferedDisk) (blockno : ℕ) : BufferedDisk :=
  { bufs with
    disk := update bufs.disk blockno (bufs.read blockno)
    writes := bufs.writes ++ [(blockno, bufs.read blockno)] }

def copyBlock (bufs : BufferedDisk) (pair : ℕ × ℕ) : BufferedDisk :=
  (bufs.modify pair.2 (bufs.read pair.1)).write pair.2

theorem read_modify (bufs : BufferedDisk) (blockno : ℕ) (data : Block) :
    (bufs.modify blockno data).read = update bufs.read blockno data := by
  funext other
  by_cases hother : other = blockno
  · subst hother
    simp [read, modify]
  · simp [read, modify, update_of_ne hother]

@[simp]
theorem disk_modify (bufs : BufferedDisk) (blockno : ℕ) (data : Block) :
    (bufs.modify blockno data).disk = bufs.disk := rfl

@[simp]
theorem writes_modify (bufs : BufferedDisk) (blockno : ℕ) (data : Block) :
    (bufs.modify blockno data).writes = bufs.writes := rfl

@[simp]
theorem read_write (bufs : BufferedDisk) (blockno : ℕ) : (bufs.write blockno).read = bufs.read := by
  funext other
  by_cases hother : other = blockno
  · subst hother
    cases hcache : bufs.cache other <;> simp [read, write, hcache]
  · simp [read, write, update_of_ne hother]

theorem disk_write (bufs : BufferedDisk) (blockno : ℕ) :
    (bufs.write blockno).disk = update bufs.disk blockno (bufs.read blockno) := rfl

theorem writes_write (bufs : BufferedDisk) (blockno : ℕ) :
    (bufs.write blockno).writes = bufs.writes ++ [(blockno, bufs.read blockno)] := rfl

/-- `Performs bufs writes final`: going from `bufs` to `final` made exactly
these block writes, and buffers and disk agree on what was written. -/
structure Performs (bufs : BufferedDisk) (writes : List (ℕ × Block))
    (final : BufferedDisk) : Prop where
  read_eq : final.read = applyWrites writes bufs.read
  disk_eq : final.disk = applyWrites writes bufs.disk
  writes_eq : final.writes = bufs.writes ++ writes

theorem Performs.refl (bufs : BufferedDisk) : bufs.Performs [] bufs :=
  ⟨rfl, rfl, by simp⟩

theorem Performs.append {first second : List (ℕ × Block)}
    {bufs middle final : BufferedDisk} (hfirst : bufs.Performs first middle)
    (hsecond : middle.Performs second final) :
    bufs.Performs (first ++ second) final where
  read_eq := by rw [hsecond.read_eq, hfirst.read_eq, applyWrites_append]
  disk_eq := by rw [hsecond.disk_eq, hfirst.disk_eq, applyWrites_append]
  writes_eq := by rw [hsecond.writes_eq, hfirst.writes_eq, List.append_assoc]

/-- Storing data into a buffer and writing it out is one block write. -/
theorem performs_modify_write (bufs : BufferedDisk) (blockno : ℕ) (data : Block) :
    bufs.Performs [(blockno, data)] ((bufs.modify blockno data).write blockno) := by
  have hdata : (bufs.modify blockno data).read blockno = data := by rw [read_modify, update_self]
  refine ⟨?_, ?_, ?_⟩
  · rw [read_write, read_modify, applyWrites_cons, applyWrites_nil]
  · rw [disk_write, hdata, disk_modify, applyWrites_cons, applyWrites_nil]
  · rw [writes_write, hdata, writes_modify]

/-- The writes of a list of copies whose sources are not among the targets:
every source still has its old contents when its turn comes. -/
theorem performs_foldl_copyBlock (pairs : List (ℕ × ℕ)) (bufs : BufferedDisk)
    (hdisjoint : ∀ source ∈ pairs, ∀ target ∈ pairs, target.2 ≠ source.1) :
    bufs.Performs (pairs.map fun pair => (pair.2, bufs.read pair.1))
      (pairs.foldl copyBlock bufs) := by
  induction pairs generalizing bufs with
  | nil => exact Performs.refl bufs
  | cons pair pairs ih =>
    have hfirst := performs_modify_write bufs pair.2 (bufs.read pair.1)
    have hsource : ∀ other ∈ pairs, (bufs.copyBlock pair).read other.1 = bufs.read other.1 := by
      intro other hother
      rw [copyBlock, hfirst.read_eq, applyWrites_cons, applyWrites_nil]
      exact update_of_ne (hdisjoint other (List.mem_cons_of_mem _ hother)
        pair List.mem_cons_self).symm _ _
    have hmap : (pairs.map fun other => (other.2, (bufs.copyBlock pair).read other.1)) =
        pairs.map fun other => (other.2, bufs.read other.1) := by
      apply List.map_congr_left
      intro other hother
      rw [hsource other hother]
    have hrest := ih (bufs.copyBlock pair) fun source hsource target htarget =>
        hdisjoint source (List.mem_cons_of_mem _ hsource) target (List.mem_cons_of_mem _ htarget)
    rw [hmap] at hrest
    exact hfirst.append hrest

end BufferedDisk

end RxOs.Buffers
