import RxOs.Fs.LogUse
import RxOs.Syscall.DirectoryMap

/-!
# The emptiness test of directories

`is_dir_empty` reads the entries behind the first two and stops at the first
one in use.  It returns `true` when there is such an entry and `false` when all
of them are free, the opposite of what its name says.  At the first entry
behind the direct-addressed range the block map allocates a block, so that the
test of a larger directory without such an entry changes the volume.
-/

namespace RxOs.EmptyDirectory

open ByteView Exec Interaction Params Blocks BitMap Dinode Inode Kernel LogUse
open FileBytes FileRefinement FileTable Operations Directory RxOs.Sequential
open DirectoryMap

/-! ## Directories of any size -/

/-- A directory whose sleep lock is held: the copy agrees with the inode table,
the bytes are whole entries, and behind the direct-addressed range there is an
indirect block. -/
structure HeldDir (kernel : KernelState) (dir : Handle) : Prop where
  sound : Sound (filesOf kernel.vol)
  inum_lt : dir.inum.toNat < kernel.vol.sb.ninodes
  copy_eq : kernel.idatas dir.index = loaded kernel.vol dir.inum.toNat
  aligned : deSize ∣ (onDisk kernel.vol dir.inum.toNat).size.toNat
  indirect : ndirect * bsize < (onDisk kernel.vol dir.inum.toNat).size.toNat →
    (onDisk kernel.vol dir.inum.toNat).addr ndirect ≠ 0

def entryAt (vol : Volume) (dinode : DiskInode) (index : ℕ) : List UInt8 :=
  (List.range deSize).map fun place => byteAt (vol.block (recorded vol.block dinode
        ((deSize * index + place) / bsize)).toNat) ((deSize * index + place) % bsize)

def AllFree (kernel : KernelState) (dir : Handle) : Prop :=
  ∀ index, 2 ≤ index → deSize * index < (onDisk kernel.vol dir.inum.toNat).size.toNat →
      entryInum (entryAt kernel.vol (onDisk kernel.vol dir.inum.toNat) index) = 0

/-- The reads of `is_dir_empty` stay inside the file. -/
def ReadsInside (kernel : KernelState) (dir : Handle) : Prop :=
  ∀ offset ∈ entryOffsets (2 * deSize) (onDisk kernel.vol dir.inum.toNat).size.toNat,
    offset + deSize ≤ (onDisk kernel.vol dir.inum.toNat).size.toNat

/-- `is_dir_empty` tells whether the directory is empty, and changes nothing. -/
structure Tells (proc : Proc) (kernel : KernelState) (dir : Handle) :
    Prop where
  inside : ReadsInside kernel dir
  answers : ∃ answer, execute proc (isDirEmpty dir) kernel =
    .ok answer kernel ∧ (answer = true ↔ AllFree kernel dir)

variable {State Value Result : Type} {proc : Proc}
variable {kernel : KernelState} {dir : Handle}

theorem heldDir_of_openDir (hdir : OpenDir kernel dir) : HeldDir kernel dir where
  sound := hdir.sound
  inum_lt := hdir.inum_lt
  copy_eq := hdir.copy_eq
  aligned := hdir.aligned
  indirect := fun hlt => absurd hdir.size_le (Nat.not_le.mpr hlt)

def entryCount (kernel : KernelState) (dir : Handle) : ℕ :=
  (onDisk kernel.vol dir.inum.toNat).size.toNat / deSize

theorem HeldDir.size_eq (hdir : HeldDir kernel dir) :
    (onDisk kernel.vol dir.inum.toNat).size.toNat = deSize * entryCount kernel dir :=
  (Nat.mul_div_cancel' hdir.aligned).symm

theorem HeldDir.offsets_eq (hdir : HeldDir kernel dir) :
    entryOffsets (2 * deSize) (onDisk kernel.vol dir.inum.toNat).size.toNat =
      (List.range' 2 (entryCount kernel dir - 2)).map (deSize * ·) := by
  rw [hdir.size_eq, Nat.mul_comm 2 deSize, entryOffsets_eq]

theorem HeldDir.readsInside (hdir : HeldDir kernel dir) : ReadsInside kernel dir := by
  intro offset hoffset
  rw [hdir.offsets_eq] at hoffset
  obtain ⟨index, hindex, rfl⟩ := List.mem_map.mp hoffset
  rw [List.mem_range'_1] at hindex
  rw [hdir.size_eq, ← Nat.mul_succ]
  exact Nat.mul_le_mul_left deSize (by omega)

/-! ## The direct-addressed range -/

theorem length_entriesOf (kernel : KernelState) (dir : Handle) :
    (entriesOf kernel dir).length = min (entryCount kernel dir) directEntries := by
  rw [entriesOf, length_entriesIn, length_bytesOf, entryCount, directEntries,
    show deSize = 16 from rfl, show ndirect * bsize = 12288 from rfl]
  omega

theorem getElem_entriesOf {index : ℕ} (hindex : index < (entriesOf kernel dir).length) :
    (entriesOf kernel dir)[index] =
      entryAt kernel.vol (onDisk kernel.vol dir.inum.toNat) index := by
  have hlt : index < min (entryCount kernel dir) directEntries :=
    length_entriesOf kernel dir ▸ hindex
  have hdirect : directEntries = 768 := rfl
  have hrange : ndirect * bsize = 12288 := rfl
  rw [entryCount, show deSize = 16 from rfl] at hlt
  change (entriesIn _)[index] = _
  rw [getElem_entriesIn _ hindex, bytesOf, contents,
    take_drop_map_range _ (by rw [show deSize = 16 from rfl]; omega), entryAt]
  apply List.map_congr_left
  intro place hplace
  rw [List.mem_range, show deSize = 16 from rfl] at hplace
  rw [fileByte, recorded_of_lt (div_lt_of_lt (by
    rw [show deSize = 16 from rfl]
    omega))]

/-- A used entry of the direct-addressed range is one behind the first two. -/
theorem exists_used_iff :
    (∃ entry ∈ (entriesOf kernel dir).drop 2, entryInum entry ≠ 0) ↔
      ∃ index < (entriesOf kernel dir).length, 2 ≤ index ∧ entryInum
        (entryAt kernel.vol (onDisk kernel.vol dir.inum.toNat) index) ≠ 0 := by
  constructor
  · rintro ⟨entry, hentry, hused⟩
    obtain ⟨index, hindex, rfl⟩ := List.mem_drop_iff_getElem.mp hentry
    rw [getElem_entriesOf] at hused
    exact ⟨2 + index, by omega, by omega, hused⟩
  · rintro ⟨index, hindex, hle, hused⟩
    rw [← getElem_entriesOf hindex] at hused
    refine ⟨_, List.mem_drop_iff_getElem.mpr ⟨index - 2, by omega, ?_⟩, hused⟩
    congr 1
    omega

theorem not_allFree_of_used (hdir : HeldDir kernel dir)
    (hused : ∃ entry ∈ (entriesOf kernel dir).drop 2, entryInum entry ≠ 0) :
    ¬AllFree kernel dir := by
  intro hfree
  obtain ⟨index, hindex, hle, hnonzero⟩ := exists_used_iff.mp hused
  rw [length_entriesOf] at hindex
  refine hnonzero (hfree index hle ?_)
  rw [hdir.size_eq]
  exact Nat.mul_lt_mul_of_pos_left (by omega) (by decide)

/-- The scan of the direct-addressed range. -/
theorem execute_emptyFrom (hdir : HeldDir kernel dir) (rest : List ℕ)
    (first count : ℕ) (hcount : count = (entriesOf kernel dir).length - first) :
    execute proc (emptyFrom dir ((List.range' first count).map (deSize * ·) ++ rest)) kernel =
      if ∃ entry ∈ (entriesOf kernel dir).drop first, entryInum entry ≠ 0 then
        .ok true kernel
      else execute proc (emptyFrom dir rest) kernel := by
  induction count generalizing first with
  | zero =>
    rw [List.drop_of_length_le (by omega), if_neg (by simp)]
    rfl
  | succ count ih =>
    have hfirst : first < (entriesOf kernel dir).length := by omega
    rw [List.range'_succ, List.map_cons, List.cons_append, emptyFrom,
      execute_bind_of_ok (execute_readEntry_direct hdir.sound hdir.inum_lt hdir.copy_eq hfirst)]
    simp only [List.drop_eq_getElem_cons hfirst, List.exists_mem_cons_iff]
    by_cases hused : entryInum (entriesOf kernel dir)[first] ≠ 0
    · rw [if_pos hused, if_pos (.inl hused)]
      rfl
    · simp only [if_neg hused, or_iff_right hused]
      exact ih (first + 1) (by omega)

theorem execute_isDirEmpty (hdir : HeldDir kernel dir) :
    execute proc (isDirEmpty dir) kernel = execute proc (emptyFrom dir ((List.range' 2
        (entryCount kernel dir - 2)).map (deSize * ·))) kernel := by
  have hview : execute proc (act (.view dir)) kernel =
      .ok (loaded kernel.vol dir.inum.toNat) kernel := by
    rw [execute_act, ← hdir.copy_eq]
    rfl
  rw [isDirEmpty, execute_bind_of_ok hview, ← hdir.offsets_eq]
  rfl

/-- In the direct-addressed range the answer is the opposite one. -/
theorem isDirEmpty_direct (hdir : HeldDir kernel dir)
    (hsize : entryCount kernel dir ≤ directEntries) :
    ∃ answer, execute proc (isDirEmpty dir) kernel = .ok answer kernel ∧
      (answer = true ↔ ¬AllFree kernel dir) := by
  have hlength := length_entriesOf kernel dir
  rw [Nat.min_eq_left hsize] at hlength
  rw [execute_isDirEmpty hdir, ← List.append_nil (List.map _ _),
    execute_emptyFrom hdir [] 2 _ (by rw [hlength])]
  split
  · next hused => exact ⟨true, rfl, iff_of_true rfl (not_allFree_of_used hdir hused)⟩
  · next hfree =>
      refine ⟨false, rfl, iff_of_false Bool.false_ne_true (not_not.mpr ?_)⟩
      intro index hle hlt
      by_contra hused
      refine hfree (exists_used_iff.mpr ⟨index, ?_, hle, hused⟩)
      rw [hdir.size_eq] at hlt
      rw [hlength]
      exact Nat.lt_of_mul_lt_mul_left hlt

theorem not_tells_direct (hdir : HeldDir kernel dir)
    (hsize : entryCount kernel dir ≤ directEntries) : ¬Tells proc kernel dir := by
  rintro ⟨-, answer, hrun, hanswer⟩
  obtain ⟨other, hother, hinverted⟩ := isDirEmpty_direct hdir hsize
  cases hrun.symm.trans hother
  exact not_iff_self (hinverted.symm.trans hanswer)

/-! ## Behind the direct-addressed range -/

/-- The history of the volume grows or stays. -/
def growing : Guarantee Volume Stop where
  rel := fun vol next => vol.events.length ≤ next.events.length
  stops := fun _ _ => True
  refl := fun _ => Nat.le_refl _
  trans := Nat.le_trans
  stable := fun _ _ => trivial

theorem covers_growing : Covers growing := by
  refine ⟨?_, fun _ _ _ => trivial⟩
  intro blockno data vol
  rw [logWrite, ensures_logStep]
  split <;> simp [growing]

/-- The program logs a block, if it returns. -/
def Moves (look : State → Volume) (program : EStateM Stop State Value) (state : State) : Prop :=
  Ensures program state (fun _ next => (look state).events.length < (look next).events.length)
    fun _ _ => True

theorem Moves.bind {look : State → Volume} {state : State}
    {program : EStateM Stop State Value} {rest : Value → EStateM Stop State Result}
    (hmoves : Moves look program state)
    (hrest : ∀ value, Guarantees (growing.comap look) (rest value)) :
    Moves look (program >>= rest) state := by
  refine Ensures.bind hmoves fun value middle hmiddle => ?_
  exact (hrest value middle).imp
    (fun _ _ hlast => Nat.lt_of_lt_of_le hmiddle hlast) fun _ _ _ => trivial

section Volume

variable {vol : Volume} (hlayout : Layout vol.sb) (idata : InodeData)

include hlayout

theorem moves_alloc : Moves id BitMap.alloc vol := by
  refine (ensures_alloc_any hlayout).imp ?_ fun _ _ _ => trivial
  intro found next hallocated
  change vol.events.length < next.events.length
  rw [hallocated.wrote.events_eq, List.length_append]
  exact Nat.lt_succ_self _

/-- With an indirect block present, `map` allocates another one. -/
theorem moves_map (hindirect : idata.dinode.addr ndirect ≠ 0) :
    Moves id (idata.map ndirect) vol := by
  rw [InodeData.map, if_neg (Nat.lt_irrefl _), if_pos (by decide)]
  simp only [if_pos hindirect]
  exact (moves_alloc hlayout).bind fun addr => covers_growing.mapSlot _ ndirect

theorem moves_read (hindirect : idata.dinode.addr ndirect ≠ 0)
    (hsize : ndirect * bsize < idata.dinode.size.toNat)
    (haligned : deSize ∣ idata.dinode.size.toNat) :
    Moves id (idata.read (.ofNat (ndirect * bsize)) (.ofNat deSize)) vol := by
  have hend : ¬idata.dinode.size.toNat <
      (UInt32.ofNat (ndirect * bsize)).toNat + (UInt32.ofNat deSize).toNat := by
    change ¬idata.dinode.size.toNat < 12288 + 16
    change 12288 < _ at hsize
    change 16 ∣ _ at haligned
    omega
  rw [InodeData.read, if_neg (by decide), if_neg hend]
  refine Moves.bind ?_ fun _ => guarantees_pure _
  change Moves id (InodeData.readLoop (15 + 1) idata (ndirect * bsize) 16) vol
  rw [InodeData.readLoop, if_neg (by decide)]
  refine Moves.bind (moves_map hlayout idata hindirect) fun mapped => ?_
  refine Guarantees.bind (guarantees_bread _) fun buf => ?_
  exact Guarantees.bind (covers_growing.readLoop _ _ _ _) fun _ => guarantees_pure _

end Volume

theorem growing_entry {outcome : Except String (List UInt8)} :
    Guarantees (growing.comap KernelState.vol) (execute proc (match outcome with
        | .ok entry => pure entry
        | .error _ => abort .unwrapNone)) := by
  cases outcome with
  | ok entry => exact guarantees_pure _
  | error message => exact guarantees_throw fun _ => trivial

theorem growing_emptyFrom (dir : Handle) (offsets : List ℕ) :
    Guarantees (growing.comap KernelState.vol) (execute proc (emptyFrom dir offsets)) := by
  induction offsets with
  | nil => exact guarantees_pure _
  | cons offset offsets ih =>
    rw [emptyFrom, readEntry, execute_bind, execute_bind, execute_act]
    refine Guarantees.bind (Guarantees.bind (guarantees_onData dir fun idata =>
      covers_growing.read idata _ _) fun _ => growing_entry) fun entry => ?_
    split
    · exact guarantees_pure _
    · exact ih

/-- The scan of a larger directory logs a block when it gets that far. -/
theorem moves_emptyFrom (hdir : HeldDir kernel dir)
    (hsize : ndirect * bsize < (onDisk kernel.vol dir.inum.toNat).size.toNat) (offsets : List ℕ) :
    Moves KernelState.vol (execute proc (emptyFrom dir (ndirect * bsize :: offsets))) kernel := by
  have hread : Moves KernelState.vol
      (onData dir (·.read (.ofNat (ndirect * bsize)) (.ofNat deSize)))
      kernel := by
    rw [Moves, ensures_onData, hdir.copy_eq]
    exact moves_read hdir.sound.layout _ (hdir.indirect hsize) hsize hdir.aligned
  rw [emptyFrom, readEntry, execute_bind, execute_bind, execute_act]
  refine (Moves.bind hread fun _ => growing_entry).bind fun entry => ?_
  split
  · exact guarantees_pure _
  · exact growing_emptyFrom dir offsets

theorem not_tells_indirect (hdir : HeldDir kernel dir)
    (hsize : directEntries < entryCount kernel dir) : ¬Tells proc kernel dir := by
  rintro ⟨-, answer, hrun, hanswer⟩
  have hlength := length_entriesOf kernel dir
  rw [Nat.min_eq_right hsize.le] at hlength
  have hoffsets : List.range' 2 (entryCount kernel dir - 2) =
      List.range' 2 (directEntries - 2) ++ directEntries :: List.range' (directEntries + 1)
          (entryCount kernel dir - directEntries - 1) := by
    have hdirect : directEntries = 768 := rfl
    rw [← List.range'_succ, hdirect, List.range'_append]
    congr 1
    omega
  rw [execute_isDirEmpty hdir, hoffsets, List.map_append, List.map_cons,
    execute_emptyFrom hdir _ 2 _ (by rw [hlength])] at hrun
  split at hrun
  · next hused =>
      cases hrun
      exact not_allFree_of_used hdir hused (hanswer.mp rfl)
  · have hlarge : ndirect * bsize < (onDisk kernel.vol dir.inum.toNat).size.toNat := by
      rw [hdir.size_eq, show ndirect * bsize = deSize * directEntries from rfl]
      exact Nat.mul_lt_mul_of_pos_left hsize (by decide)
    exact absurd ((moves_emptyFrom hdir hlarge _).eq_ok hrun) (Nat.lt_irrefl _)

/-- `is_dir_empty` never tells whether the directory is empty: in the
direct-addressed range it returns the opposite. -/
theorem isDirEmpty_inverted (proc : Proc) {kernel : KernelState} {dir : Handle}
    (hdir : HeldDir kernel dir) :
    ¬Tells proc kernel dir ∧ (entryCount kernel dir ≤ directEntries → ReadsInside kernel dir ∧
        ∃ answer, execute proc (isDirEmpty dir) kernel = .ok answer kernel ∧
          (answer = true ↔ ¬AllFree kernel dir)) := by
  refine ⟨?_, fun hsize => ⟨hdir.readsInside, isDirEmpty_direct hdir hsize⟩⟩
  rcases Nat.lt_or_ge directEntries (entryCount kernel dir) with hlt | hle
  · exact not_tells_indirect hdir hlt
  · exact not_tells_direct hdir hle

theorem isDirEmpty_inverted_roomy : ¬Tells 0 (smallKernel roomyEntries) ⟨1, 0⟩ :=
  (isDirEmpty_inverted 0 (heldDir_of_openDir (openDir_smallKernel (by decide) (by decide)))).1

/-- The test of a directory whose only entry is the first one. -/
theorem not_isDirEmpty_tells :
    ¬∀ (proc : Proc) (kernel : KernelState) (dir : Handle),
      HeldDir kernel dir → Tells proc kernel dir := by
  intro hall
  have hdir : HeldDir (smallKernel roomyEntries) ⟨1, 0⟩ :=
    heldDir_of_openDir (openDir_smallKernel (by decide) (by decide))
  exact not_tells_direct hdir (by decide +kernel) (hall 0 (smallKernel roomyEntries) ⟨1, 0⟩ hdir)

end RxOs.EmptyDirectory
