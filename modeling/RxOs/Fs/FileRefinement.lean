import RxOs.Fs.BlockMap
import RxOs.Fs.FileBytes

/-!
# Files refine byte arrays

Above the inode layer a file is an array of bytes that a write overwrites from
some position on.  The files of a volume, read and written through their
in-memory inodes in any order and across any number of transactions, behave as
such arrays in the direct-addressed range, each of them independent of the
others, for as long as neither the bitmap nor the log runs out.
-/

namespace RxOs.FileRefinement

open Function ByteView Exec Params LogCrash Blocks BitMap Dinode Inode BlockMap
open FileBytes

/-! ## Calls on the inodes of a volume -/

structure Files where
  vol : Volume
  inodes : ℕ → InodeData

/-- Calls of `InodeData::write` and `InodeData::read` on an inode, and the
boundaries of the transactions around them. -/
inductive Op
  | write (inum : ℕ) (offset : UInt32) (data : List UInt8)
  | read (inum : ℕ) (offset count : UInt32)
  | beginOp
  | endOp

inductive Reply
  | wrote (result : Except String ℕ)
  | bytes (result : Except String (List UInt8))
  | done

def onInode {Value : Type} (inum : ℕ) (method : InodeData → FsM (Value × InodeData)) :
    EStateM Stop Files Value :=
  fun files =>
    match method (files.inodes inum) files.vol with
    | .ok (value, idata) vol => .ok value ⟨vol, update files.inodes inum idata⟩
    | .error cause vol => .error cause { files with vol := vol }

def onVolume (call : FsM Unit) : EStateM Stop Files Unit :=
  fun files =>
    match call files.vol with
    | .ok value vol => .ok value { files with vol := vol }
    | .error cause vol => .error cause { files with vol := vol }

def perform : Op → EStateM Stop Files Reply
  | .write inum offset data => Reply.wrote <$> onInode inum fun idata => idata.write offset data
  | .read inum offset count => Reply.bytes <$> onInode inum fun idata => idata.read offset count
  | .beginOp => (fun _ => Reply.done) <$> onVolume beginOp
  | .endOp => (fun _ => Reply.done) <$> onVolume endOp

def performAll : List Op → EStateM Stop Files (List Reply)
  | [] => return []
  | op :: ops => do
    let reply ← perform op
    let replies ← performAll ops
    return reply :: replies

/-! ## Byte arrays -/

/-- A file as its users see it: its size and the bytes of the direct-addressed
range, which is the whole file if the file is not larger than that. -/
structure File where
  size : ℕ
  bytes : List UInt8

structure Model where
  files : ℕ → File
  opened : ℕ

/-- The bytes after a write at `offset`. -/
def overwrite (bytes : List UInt8) (offset : ℕ) (data : List UInt8) : List UInt8 :=
  bytes.take offset ++ data ++ bytes.drop (offset + data.length)

/-- Overwriting, position by position. -/
theorem overwrite_map_range {before after : ℕ → UInt8} {size offset : ℕ}
    {data : List UInt8} (hoffset : offset ≤ size) (hkept : ∀ position < size,
      position < offset ∨ offset + data.length ≤ position → after position = before position)
    (hwritten : ∀ position, offset ≤ position → position < offset + data.length →
        after position = data.getD (position - offset) 0) :
    (List.range (max size (offset + data.length))).map after =
      overwrite ((List.range size).map before) offset data := by
  have htake : (((List.range size).map before).take offset).length = offset := by
    rw [List.length_take, List.length_map, List.length_range]
    omega
  apply List.ext_getElem
  · rw [overwrite, List.length_append, List.length_append, htake,
      List.length_drop, List.length_map, List.length_range, List.length_map, List.length_range]
    omega
  · intro position hleft hright
    rw [List.length_map, List.length_range] at hleft
    rw [List.getElem_map, List.getElem_range]
    simp only [overwrite, List.append_assoc]
    by_cases hbefore : position < offset
    · rw [List.getElem_append_left (by omega), List.getElem_take,
        List.getElem_map, List.getElem_range]
      exact hkept position (by omega) (.inl hbefore)
    · rw [List.getElem_append_right (by omega)]
      simp only [htake]
      by_cases hinside : position < offset + data.length
      · rw [List.getElem_append_left (by omega), hwritten position (by omega)
          hinside, List.getD_eq_getElem _ _ (by omega)]
      · rw [List.getElem_append_right (by omega), List.getElem_drop,
          List.getElem_map, List.getElem_range, hkept position (by omega) (.inr (by omega))]
        congr 1
        omega

/-- Reading, position by position. -/
theorem take_drop_map_range (byte : ℕ → UInt8) {size offset count : ℕ}
    (hend : offset + count ≤ size) :
    (((List.range size).map byte).drop offset).take count =
      (List.range count).map fun index => byte (offset + index) := by
  apply List.ext_getElem
  · simp only [List.length_take, List.length_drop, List.length_map, List.length_range]
    omega
  · intro position _ _
    simp only [List.getElem_take, List.getElem_drop, List.getElem_map, List.getElem_range]

def Model.step (model : Model) : Op → Reply × Model
  | .write inum offset data =>
    (.wrote (.ok data.length), { model with
      files := update model.files inum
        { size := max (model.files inum).size (offset.toNat + data.length)
          bytes := overwrite (model.files inum).bytes offset.toNat data } })
  | .read inum offset count =>
    (.bytes (.ok (((model.files inum).bytes.drop offset.toNat).take count.toNat)), model)
  | .beginOp => (.done, { model with opened := model.opened + 1 })
  | .endOp => (.done, { model with opened := model.opened - 1 })

def Model.run (model : Model) : List Op → List Reply × Model
  | [] => ([], model)
  | op :: ops =>
    let rest := (model.step op).2.run ops
    ((model.step op).1 :: rest.1, rest.2)

/-- Writes start inside the file or at its end and stay in the direct-addressed
range, reads stay inside the file and in that range; writes are made inside an
operation. -/
def Model.Allowed (model : Model) (ninodes : ℕ) : Op → Prop
  | .write inum offset data => inum < ninodes ∧ offset.toNat ≤ (model.files inum).size ∧
      offset.toNat + data.length ≤ ndirect * bsize ∧ 0 < model.opened
  | .read inum offset count => inum < ninodes ∧
      offset.toNat + count.toNat ≤ (model.files inum).size ∧
      offset.toNat + count.toNat ≤ ndirect * bsize
  | .beginOp => True
  | .endOp => 0 < model.opened

def Model.AllAllowed (model : Model) (ninodes : ℕ) : List Op → Prop
  | [] => True
  | op :: ops => model.Allowed ninodes op ∧ (model.step op).2.AllAllowed ninodes ops

/-! ## Well-formed volumes -/

/-- Boot block, superblock, log, inode table and bitmap. -/
def metadata (sb : SuperBlock) : Set ℕ :=
  { blockno | ∃ other < sb.size, blockno ≤ sb.locateBmp other }

def slots : ℕ := ndirect + 1 + nindirect

/-- The pointers of all inodes are in use, above the metadata and pairwise
distinct, each file is mapped up to its size, and the in-memory inodes agree
with the inode table. -/
structure Sound (files : Files) : Prop where
  layout : Layout files.vol.sb
  metadata : ∀ blockno ∈ metadata files.vol.sb, InUse files.vol blockno
  recording : Recording files.vol.sb.logArea files.vol.logged.log
  inum_eq : ∀ inum < files.vol.sb.ninodes, (files.inodes inum).inum.toNat = inum
  loaded : ∀ inum < files.vol.sb.ninodes, onDisk files.vol inum = (files.inodes inum).dinode
  inUse : ∀ inum < files.vol.sb.ninodes, ∀ slot < slots,
    pointer files.vol.block (files.inodes inum).dinode slot ≠ 0 →
      InUse files.vol (pointer files.vol.block (files.inodes inum).dinode slot).toNat
  data : ∀ inum < files.vol.sb.ninodes, ∀ slot < slots,
    pointer files.vol.block (files.inodes inum).dinode slot ≠ 0 →
      (pointer files.vol.block (files.inodes inum).dinode slot).toNat ∉
        FileRefinement.metadata files.vol.sb
  distinct : ∀ left < files.vol.sb.ninodes, ∀ leftSlot < slots,
    ∀ right < files.vol.sb.ninodes, ∀ rightSlot < slots,
      pointer files.vol.block (files.inodes left).dinode leftSlot ≠ 0 →
      pointer files.vol.block (files.inodes left).dinode leftSlot =
        pointer files.vol.block (files.inodes right).dinode rightSlot →
      left = right ∧ leftSlot = rightSlot
  mapped : ∀ inum < files.vol.sb.ninodes, ∀ index < ndirect,
    index * bsize < (files.inodes inum).dinode.size.toNat →
      (files.inodes inum).dinode.addr index ≠ 0

/-- A volume stays sound if its inodes lose no block that is in use and gain no
pointer. -/
theorem Sound.of_pointers {files next : Files} (hsound : Sound files)
    (hsb : next.vol.sb = files.vol.sb)
    (hinUse : ∀ blockno, InUse files.vol blockno → InUse next.vol blockno)
    (hrecording : Recording files.vol.sb.logArea next.vol.logged.log)
    (hinum : ∀ inum < files.vol.sb.ninodes, (next.inodes inum).inum.toNat = inum)
    (hloaded : ∀ inum < files.vol.sb.ninodes, onDisk next.vol inum = (next.inodes inum).dinode)
    (hpointer : ∀ inum < files.vol.sb.ninodes, ∀ slot,
      pointer next.vol.block (next.inodes inum).dinode slot ≠ 0 →
        pointer next.vol.block (next.inodes inum).dinode slot =
          pointer files.vol.block (files.inodes inum).dinode slot)
    (hmapped : ∀ inum < files.vol.sb.ninodes, ∀ index < ndirect,
      index * bsize < (next.inodes inum).dinode.size.toNat →
        (next.inodes inum).dinode.addr index ≠ 0) : Sound next := by
  refine ⟨?_, ?_, ?_, ?_, ?_, ?_, ?_, ?_, ?_⟩ <;> rw [hsb]
  · exact hsound.layout
  · exact fun blockno hmem => hinUse blockno (hsound.metadata blockno hmem)
  · exact hrecording
  · exact hinum
  · exact hloaded
  · intro inum hlt slot hslot hnonzero
    have hsame := hpointer inum hlt slot hnonzero
    rw [hsame] at hnonzero ⊢
    exact hinUse _ (hsound.inUse inum hlt slot hslot hnonzero)
  · intro inum hlt slot hslot hnonzero
    have hsame := hpointer inum hlt slot hnonzero
    rw [hsame] at hnonzero ⊢
    exact hsound.data inum hlt slot hslot hnonzero
  · intro left hleft leftSlot hleftSlot right hright rightSlot hrightSlot hnonzero heq
    have hother := hpointer right hright rightSlot (heq ▸ hnonzero)
    rw [hpointer left hleft leftSlot hnonzero, hother] at heq
    rw [hpointer left hleft leftSlot hnonzero] at hnonzero
    exact hsound.distinct left hleft leftSlot hleftSlot right hright rightSlot
      hrightSlot hnonzero heq
  · exact hmapped

def contents (vol : Volume) (dinode : DiskInode) : List UInt8 :=
  (List.range (min dinode.size.toNat (ndirect * bsize))).map (fileByte vol dinode)

/-- A sound volume whose files are the arrays of the model. -/
structure Refines (files : Files) (model : Model) : Prop
    extends Sound files where
  opened_eq : files.vol.logged.log.outstanding = model.opened
  size_eq : ∀ inum < files.vol.sb.ninodes,
    (files.inodes inum).dinode.size.toNat = (model.files inum).size
  bytes_eq : ∀ inum < files.vol.sb.ninodes,
    contents files.vol (files.inodes inum).dinode = (model.files inum).bytes

/-- Bitmap or log have run out, or `begin_op` waits for the log. -/
def OutOfRoom (cause : Stop) (files : Files) : Prop :=
  Exhausted cause files.vol ∨ cause = .sleep

/-! ## One inode among the others -/

/-- The pointers that a write to `inum` must leave alone: those of the other
inodes, and its own ones inside its indirect block. -/
def othersFrame (files : Files) (inum : ℕ) : Set ℕ :=
  FileRefinement.metadata files.vol.sb ∪
    { blockno | ∃ other < files.vol.sb.ninodes, ∃ slot < slots,
        (other ≠ inum ∨ ndirect < slot) ∧
        pointer files.vol.block (files.inodes other).dinode slot ≠ 0 ∧
        (pointer files.vol.block (files.inodes other).dinode slot).toNat = blockno }

section Areas

variable {sb : SuperBlock}

theorem bitmapBlocks_subset_metadata : bitmapBlocks sb ⊆ metadata sb := by
  rintro _ ⟨other, hother, rfl⟩
  exact ⟨other, hother, Nat.le_refl _⟩

theorem le_of_mem_bitmapBlocks {place : ℕ} (hplace : place ∈ bitmapBlocks sb) :
    sb.bmapstart ≤ place := by
  obtain ⟨other, _, rfl⟩ := hplace
  exact Nat.le_add_right _ _

theorem mem_metadata_of_le (hlayout : Layout sb) {blockno : ℕ}
    (hle : blockno ≤ sb.bmapstart) : blockno ∈ metadata sb := by
  refine ⟨0, hlayout.size_pos, ?_⟩
  rwa [SuperBlock.locateBmp, Nat.zero_div, Nat.add_zero]

theorem inodeBlock_lt (hlayout : Layout sb) {inum : ℕ}
    (hinum : inum < sb.ninodes) : inodeBlock sb inum < sb.bmapstart :=
  hlayout.inodes_end inum hinum

theorem inodeBlock_mem_metadata (hlayout : Layout sb) {inum : ℕ}
    (hinum : inum < sb.ninodes) : inodeBlock sb inum ∈ metadata sb :=
  mem_metadata_of_le hlayout (inodeBlock_lt hlayout hinum).le

theorem inodeBlock_notMem_bitmapBlocks (hlayout : Layout sb) {inum : ℕ}
    (hinum : inum < sb.ninodes) : inodeBlock sb inum ∉ bitmapBlocks sb := by
  intro hmem
  have hle := le_of_mem_bitmapBlocks hmem
  have hlt := inodeBlock_lt hlayout hinum
  omega

theorem not_contains_of_le (hlayout : Layout sb) {blockno : ℕ}
    (hle : sb.inodestart ≤ blockno) : ¬sb.logArea.Contains blockno := by
  rintro ⟨_, hlt⟩
  have hend := hlayout.log_end
  change blockno < sb.logstart + sb.nlog at hlt
  omega

theorem bmapstart_le_of_notMem (hlayout : Layout sb) {blockno : ℕ}
    (hdata : blockno ∉ metadata sb) : sb.bmapstart ≤ blockno := by
  by_contra hlt
  exact hdata (mem_metadata_of_le hlayout (by omega))

end Areas

section Inode

variable {files : Files} {model : Model} {inum : ℕ}

theorem Sound.frame (hsound : Sound files) (inum : ℕ) :
    Frame (othersFrame files inum) files.vol where
  layout := hsound.layout
  inUse := by
    rintro blockno (hmem | ⟨other, hother, slot, hslot, -, hnonzero, rfl⟩)
    · exact hsound.metadata blockno hmem
    · exact hsound.inUse other hother slot hslot hnonzero
  zero := .inl (mem_metadata_of_le hsound.layout (Nat.zero_le _))
  bitmap := bitmapBlocks_subset_metadata.trans Set.subset_union_left

theorem Sound.holds (hsound : Sound files) (hinum : inum < files.vol.sb.ninodes) :
    Holds files.vol (files.inodes inum).dinode := by
  have hslots : slots = ndirect + 1 + nindirect := rfl
  refine ⟨?_, ?_⟩
  · intro index hindex hnonzero
    have hinUse := hsound.inUse inum hinum index (by omega)
    rw [pointer_of_le _ _ (by omega)] at hinUse
    exact hinUse hnonzero
  · intro left hleft right hright hnonzero heq
    have hdistinct := hsound.distinct inum hinum left (by omega) inum hinum
      right (by omega)
    rw [pointer_of_le _ _ (by omega), pointer_of_le _ _ (by omega)] at hdistinct
    exact (hdistinct hnonzero heq).2

theorem Sound.apart (hsound : Sound files) (hinum : inum < files.vol.sb.ninodes) :
    Apart (othersFrame files inum) (files.inodes inum).dinode := by
  have hslots : slots = ndirect + 1 + nindirect := rfl
  intro index hindex hnonzero
  have hpointer := pointer_of_le files.vol.block
    (files.inodes inum).dinode (show index ≤ ndirect by omega)
  rw [← hpointer] at hnonzero ⊢
  rintro (hmem | ⟨other, hother, slot, hslot, hdiff, hother', heq⟩)
  · exact hsound.data inum hinum index (by omega) hnonzero hmem
  · obtain ⟨rfl, rfl⟩ := hsound.distinct other hother slot hslot inum hinum
      index (by omega) hother' (UInt32.toNat.inj heq)
    rcases hdiff with hne | hgt
    · exact hne rfl
    · omega

/-- Another inode's pointer is outside the metadata and in the frame. -/
theorem Sound.pointer_mem_frame (hsound : Sound files) {other slot : ℕ}
    (hother : other < files.vol.sb.ninodes) (hne : other ≠ inum) (hslot : slot < slots)
    (hnonzero : pointer files.vol.block (files.inodes other).dinode slot ≠ 0) :
    (pointer files.vol.block (files.inodes other).dinode slot).toNat ∈ othersFrame files inum ∧
      (pointer files.vol.block (files.inodes other).dinode slot).toNat ∉
        FileRefinement.metadata files.vol.sb :=
  ⟨.inr ⟨other, hother, slot, hslot, .inl hne, hnonzero, rfl⟩,
    hsound.data other hother slot hslot hnonzero⟩

end Inode

/-! ## A write -/

section Write

variable {files : Files} {model : Model} {inum offset : ℕ}
variable {data : List UInt8} {result : InodeData} {middle next : Volume}

/-- The files after a write to `inum`. -/
def afterWrite (files : Files) (inum : ℕ) (result : InodeData) (next : Volume) : Files :=
  ⟨next, update files.inodes inum result⟩

@[simp]
theorem afterWrite_self (files : Files) (inum : ℕ) (result : InodeData) (next : Volume) :
    (afterWrite files inum result next).inodes inum = result :=
  update_self _ _ _

theorem afterWrite_of_ne (files : Files) {inum other : ℕ} (result : InodeData)
    (next : Volume) (hne : other ≠ inum) :
    (afterWrite files inum result next).inodes other = files.inodes other :=
  update_of_ne hne _ _

/-- A write to `inum` that went through. -/
structure WriteDone (files : Files) (inum offset : ℕ) (data : List UInt8)
    (result : InodeData) (middle next : Volume) : Prop where
  sound : Sound files
  inum_lt : inum < files.vol.sb.ninodes
  written : Written (othersFrame files inum) (files.inodes inum) offset data
    files.vol result middle next
  offset_le : offset ≤ (files.inodes inum).dinode.size.toNat
  end_le : offset + data.length ≤ ndirect * bsize

namespace WriteDone

variable (hdone : WriteDone files inum offset data result middle next)

include hdone

theorem sb_eq : next.sb = files.vol.sb :=
  hdone.written.wrote.sb_eq.trans hdone.written.stored.changes.sb_eq

theorem wrote : Wrote (.ofNat (inodeBlock middle.sb inum))
    (DiskInode.store (middle.block (inodeBlock middle.sb inum)) (dinodeSize * (inum % ipb))
      (result.grow (offset + data.length)).dinode) middle next := by
  have hwrote := hdone.written.wrote
  rwa [hdone.sound.inum_eq inum hdone.inum_lt] at hwrote

theorem layout_middle : Layout middle.sb := by
  rw [hdone.written.stored.changes.sb_eq]
  exact hdone.sound.layout

theorem toNat_inodeBlock_middle :
    (UInt32.ofNat (inodeBlock middle.sb inum)).toNat = inodeBlock files.vol.sb inum := by
  rw [hdone.written.stored.changes.sb_eq]
  exact toNat_inodeBlock hdone.sound.layout hdone.inum_lt

/-- Which blocks a write touches: the bitmap, the data of the file and the
block of its inode. -/
theorem changes : Changes (bitmapBlocks files.vol.sb ∪
    dataBlocks result.dinode ∪ {inodeBlock files.vol.sb inum}) files.vol next := by
  have hfirst := hdone.written.stored.changes
  have hsecond := hdone.wrote.changes
  rw [hdone.toNat_inodeBlock_middle] at hsecond
  exact (hfirst.mono Set.subset_union_left).trans (hsecond.mono Set.subset_union_right)

/-- A block of the frame that is neither bitmap nor the block of the inode
stays. -/
theorem block_eq {blockno : ℕ} (hframe : blockno ∈ othersFrame files inum)
    (hbitmap : blockno ∉ bitmapBlocks files.vol.sb)
    (hinode : blockno ≠ inodeBlock files.vol.sb inum) :
    next.block blockno = files.vol.block blockno := by
  apply hdone.changes.block_eq
  rintro ((hmem | ⟨index, hindex, hnonzero, rfl⟩) | hmem)
  · exact hbitmap hmem
  · exact hdone.written.stored.apart index (Nat.lt_succ_of_lt hindex) hnonzero hframe
  · exact hinode hmem

theorem block_eq_of_data {blockno : ℕ} (hframe : blockno ∈ othersFrame files inum)
    (hdata : blockno ∉ FileRefinement.metadata files.vol.sb) :
    next.block blockno = files.vol.block blockno := by
  apply hdone.block_eq hframe
  · exact fun hmem => hdata (bitmapBlocks_subset_metadata hmem)
  · rintro rfl
    exact hdata (inodeBlock_mem_metadata hdone.sound.layout hdone.inum_lt)

theorem inUse_iff (blockno : ℕ) : InUse next blockno ↔ InUse middle blockno := by
  apply inUse_of_changes hdone.wrote.changes
  intro place hplace hmem
  rw [Set.mem_singleton_iff, hdone.toNat_inodeBlock_middle] at hmem
  rw [hdone.written.stored.changes.sb_eq] at hplace
  subst hmem
  exact inodeBlock_notMem_bitmapBlocks hdone.sound.layout hdone.inum_lt hplace

theorem inUse_mono {blockno : ℕ} (hinUse : InUse files.vol blockno) : InUse next blockno :=
  (hdone.inUse_iff blockno).mpr (hdone.written.stored.inUse_mono blockno hinUse)

/-- The pointers of the other inodes stay. -/
theorem pointer_other {other : ℕ} (slot : ℕ)
    (hother : other < files.vol.sb.ninodes) (hne : other ≠ inum) :
    pointer next.block (files.inodes other).dinode slot =
      pointer files.vol.block (files.inodes other).dinode slot := by
  have hslots : slots = ndirect + 1 + nindirect := rfl
  by_cases hdirect : slot ≤ ndirect
  · rw [pointer_of_le _ _ hdirect, pointer_of_le _ _ hdirect]
  · apply pointer_congr (by omega) rfl
    intro hnonzero
    rw [← pointer_of_le files.vol.block _ (Nat.le_refl ndirect)] at hnonzero ⊢
    obtain ⟨hframe, hdata⟩ := hdone.sound.pointer_mem_frame hother hne (by omega) hnonzero
    exact hdone.block_eq_of_data hframe hdata

/-- The own pointers inside the indirect block stay. -/
theorem pointer_indirect {slot : ℕ} (hslot : ndirect < slot) :
    pointer next.block result.dinode slot =
      pointer files.vol.block (files.inodes inum).dinode slot := by
  have hslots : slots = ndirect + 1 + nindirect := rfl
  apply pointer_congr hslot hdone.written.stored.indirect
  intro hnonzero
  have hdata := hdone.sound.data inum hdone.inum_lt ndirect (by omega)
  rw [pointer_of_le _ _ (Nat.le_refl _)] at hdata
  apply hdone.changes.block_eq
  rintro ((hmem | ⟨index, hindex, hother, heq⟩) | hmem)
  · exact hdata hnonzero (bitmapBlocks_subset_metadata hmem)
  · have hsame := hdone.written.stored.holds.distinct index (by omega) ndirect (by omega) hother
      (by rw [hdone.written.stored.indirect]; exact UInt32.toNat.inj heq)
    omega
  · rw [Set.mem_singleton_iff] at hmem
    exact hdata hnonzero (hmem ▸ inodeBlock_mem_metadata hdone.sound.layout hdone.inum_lt)

/-- Every own pointer is in use, above the metadata and not in the frame,
unless it is one of the indirect block. -/
theorem pointer_own {slot : ℕ} (hslot : slot ≤ ndirect) (hnonzero : result.dinode.addr slot ≠ 0) :
    InUse next (result.dinode.addr slot).toNat ∧
      (result.dinode.addr slot).toNat ∉ othersFrame files inum :=
  ⟨(hdone.inUse_iff _).mpr (hdone.written.stored.holds.inUse slot
      (Nat.lt_succ_of_le hslot) hnonzero),
    hdone.written.stored.apart slot (Nat.lt_succ_of_le hslot) hnonzero⟩

/-- A pointer after the write is one of before that the write had to leave
alone, or one of the direct addresses of the file. -/
theorem pointer_cases {other : ℕ} (slot : ℕ) (hother : other < files.vol.sb.ninodes) :
    ((other ≠ inum ∨ ndirect < slot) ∧ pointer next.block ((afterWrite files inum
        (result.grow (offset + data.length)) next).inodes other).dinode slot =
          pointer files.vol.block (files.inodes other).dinode slot) ∨
    (other = inum ∧ slot ≤ ndirect ∧ pointer next.block ((afterWrite files inum
        (result.grow (offset + data.length)) next).inodes other).dinode slot =
          result.dinode.addr slot) := by
  by_cases hsame : other = inum
  · subst hsame
    have hgrow : pointer next.block ((afterWrite files other
        (result.grow (offset + data.length)) next).inodes other).dinode slot =
          pointer next.block result.dinode slot := by simp [pointer, recorded]
    rw [hgrow]
    by_cases hslot : slot ≤ ndirect
    · exact .inr ⟨rfl, hslot, pointer_of_le _ _ hslot⟩
    · exact .inl ⟨.inr (by omega), hdone.pointer_indirect (by omega)⟩
  · left
    refine ⟨.inl hsame, ?_⟩
    rw [afterWrite_of_ne _ _ _ hsame]
    exact hdone.pointer_other slot hother hsame

/-- The size of the file after the write. -/
theorem size_final :
    (result.grow (offset + data.length)).dinode.size.toNat =
      max (files.inodes inum).dinode.size.toNat (offset + data.length) := by
  have hend := hdone.end_le
  have hrange : ndirect * bsize = 12288 := rfl
  rw [size_grow _ (by omega)]
  obtain ⟨_, hsame⟩ := hdone.written.stored.same
  rw [hsame]
  rfl

/-- The file is mapped up to its new size. -/
theorem mapped_final {index : ℕ} (hindex : index < ndirect) (hsize : index * bsize <
      max (files.inodes inum).dinode.size.toNat (offset + data.length)) :
    result.dinode.addr index ≠ 0 := by
  by_cases hold : index * bsize < (files.inodes inum).dinode.size.toNat
  · have hnonzero := hdone.sound.mapped inum hdone.inum_lt index hindex hold
    rw [hdone.written.stored.kept index hnonzero]
    exact hnonzero
  · have hoffset := hdone.offset_le
    have hnonzero := (hdone.written.stored.written (index * bsize) (by omega) (by omega)).1
    rwa [Nat.mul_div_cancel _ (show 0 < bsize by decide)] at hnonzero

theorem onDisk_final {other : ℕ} (hother : other < files.vol.sb.ninodes) :
    onDisk next other = ((afterWrite files inum
      (result.grow (offset + data.length)) next).inodes other).dinode := by
  have hstored := hdone.written.stored
  have hinum : inum < middle.sb.ninodes := by
    rw [hstored.changes.sb_eq]
    exact hdone.inum_lt
  rw [Wrote.onDisk_eq hdone.layout_middle hinum hdone.wrote]
  by_cases hsame : other = inum
  · rw [if_pos hsame, hsame, afterWrite_self]
  · rw [if_neg hsame, afterWrite_of_ne _ _ _ hsame,
      ← hdone.sound.loaded other hother, onDisk, onDisk,
      hstored.changes.sb_eq, hstored.changes.block_eq]
    rintro (hmem | ⟨index, hindex, hnonzero, heq⟩)
    · exact inodeBlock_notMem_bitmapBlocks hdone.sound.layout hother hmem
    · apply hstored.apart index (Nat.lt_succ_of_lt hindex) hnonzero
      rw [heq]
      exact .inl (inodeBlock_mem_metadata hdone.sound.layout hother)

theorem recording_final : Recording files.vol.sb.logArea next.logged.log := by
  have hlayout := hdone.sound.layout
  have hstart := hlayout.table_le
  apply hdone.changes.recording _ _ hdone.sound.recording
  rintro blockno ((hmem | ⟨index, hindex, hnonzero, rfl⟩) | hmem)
  · exact not_contains_of_le hlayout (hstart.trans (le_of_mem_bitmapBlocks hmem))
  · have hdata := hdone.written.stored.apart index (Nat.lt_succ_of_lt hindex) hnonzero
    refine not_contains_of_le hlayout (hstart.trans (bmapstart_le_of_notMem hlayout ?_))
    exact fun hmem => hdata (.inl hmem)
  · rw [Set.mem_singleton_iff] at hmem
    rw [hmem]
    exact not_contains_of_le hlayout (Nat.le_add_left _ _)

/-- A write keeps the volume sound. -/
theorem sound_after : Sound (afterWrite files inum (result.grow (offset + data.length)) next) := by
  have hsb : (afterWrite files inum (result.grow (offset + data.length))
      next).vol.sb = files.vol.sb := hdone.sb_eq
  have hold : ∀ other < files.vol.sb.ninodes, ∀ slot < slots, (other ≠ inum ∨ ndirect < slot) →
      pointer files.vol.block (files.inodes other).dinode slot ≠ 0 →
      (pointer files.vol.block (files.inodes other).dinode slot).toNat ∈
        othersFrame files inum := by
    intro other hother slot hslot hdiff hnonzero
    exact .inr ⟨other, hother, slot, hslot, hdiff, hnonzero, rfl⟩
  refine ⟨?_, ?_, ?_, ?_, ?_, ?_, ?_, ?_, ?_⟩
  · rw [hsb]
    exact hdone.sound.layout
  · rw [hsb]
    intro blockno hmem
    exact hdone.inUse_mono (hdone.sound.metadata blockno hmem)
  · rw [hsb]
    exact hdone.recording_final
  · rw [hsb]
    intro other hother
    by_cases hsame : other = inum
    · obtain ⟨_, hresult⟩ := hdone.written.stored.same
      rw [hsame, afterWrite_self, inum_grow, hresult]
      exact hdone.sound.inum_eq inum hdone.inum_lt
    · rw [afterWrite_of_ne _ _ _ hsame]
      exact hdone.sound.inum_eq other hother
  · rw [hsb]
    intro other hother
    exact hdone.onDisk_final hother
  · rw [hsb]
    intro other hother slot hslot hnonzero
    rcases hdone.pointer_cases slot hother with
      ⟨-, heq⟩ | ⟨-, hdirect, heq⟩
    · change InUse next (pointer next.block _ slot).toNat
      change pointer next.block _ slot ≠ 0 at hnonzero
      rw [heq] at hnonzero ⊢
      exact hdone.inUse_mono (hdone.sound.inUse other hother slot hslot hnonzero)
    · change InUse next (pointer next.block _ slot).toNat
      change pointer next.block _ slot ≠ 0 at hnonzero
      rw [heq] at hnonzero ⊢
      exact (hdone.pointer_own hdirect hnonzero).1
  · rw [hsb]
    intro other hother slot hslot hnonzero hmem
    change (pointer next.block _ slot).toNat ∈ _ at hmem
    change pointer next.block _ slot ≠ 0 at hnonzero
    rcases hdone.pointer_cases slot hother with
      ⟨-, heq⟩ | ⟨-, hdirect, heq⟩
    · rw [heq] at hnonzero hmem
      exact hdone.sound.data other hother slot hslot hnonzero hmem
    · rw [heq] at hnonzero hmem
      exact (hdone.pointer_own hdirect hnonzero).2 (.inl hmem)
  · rw [hsb]
    intro left hleft leftSlot hleftSlot right hright rightSlot hrightSlot hnonzero heq
    change pointer next.block _ leftSlot ≠ 0 at hnonzero
    change pointer next.block _ leftSlot = pointer next.block _ rightSlot at heq
    rcases hdone.pointer_cases leftSlot hleft with
      ⟨hl, hleq⟩ | ⟨rfl, hl, hleq⟩ <;>
    rcases hdone.pointer_cases rightSlot hright with
      ⟨hr, hreq⟩ | ⟨rfl, hr, hreq⟩
    · rw [hleq] at hnonzero heq
      rw [hreq] at heq
      exact hdone.sound.distinct left hleft leftSlot hleftSlot right hright
        rightSlot hrightSlot hnonzero heq
    · rw [hleq] at hnonzero heq
      rw [hreq] at heq
      have hmem := hold left hleft leftSlot hleftSlot hl hnonzero
      rw [heq] at hnonzero hmem
      exact absurd hmem (hdone.pointer_own hr hnonzero).2
    · rw [hleq] at hnonzero heq
      rw [hreq] at heq
      have hmem := hold right hright rightSlot hrightSlot hr (heq ▸ hnonzero)
      rw [← heq] at hmem
      exact absurd hmem (hdone.pointer_own hl hnonzero).2
    · rw [hleq] at hnonzero heq
      rw [hreq] at heq
      exact ⟨rfl, hdone.written.stored.holds.distinct leftSlot (by omega)
        rightSlot (by omega) hnonzero heq⟩
  · rw [hsb]
    intro other hother index hindex hsize
    by_cases hsame : other = inum
    · rw [hsame, afterWrite_self, hdone.size_final] at hsize
      rw [hsame, afterWrite_self, addr_grow]
      exact hdone.mapped_final hindex hsize
    · rw [afterWrite_of_ne _ _ _ hsame] at hsize ⊢
      exact hdone.sound.mapped other hother index hindex hsize

/-- The bytes of the other files stay. -/
theorem contents_other {other : ℕ} (hother : other < files.vol.sb.ninodes) (hne : other ≠ inum) :
    contents next (files.inodes other).dinode = contents files.vol (files.inodes other).dinode := by
  have hslots : slots = ndirect + 1 + nindirect := rfl
  apply List.map_congr_left
  intro position hposition
  rw [List.mem_range] at hposition
  have hindex := div_lt_of_lt (show position < ndirect * bsize by omega)
  have hnonzero := hdone.sound.mapped other hother _ hindex
    (lt_of_le_of_lt (Nat.div_mul_le_self position bsize) (by omega))
  rw [fileByte, fileByte]
  rw [← pointer_of_le files.vol.block _ hindex.le] at hnonzero ⊢
  obtain ⟨hframe, hdata⟩ := hdone.sound.pointer_mem_frame hother hne (by omega) hnonzero
  rw [hdone.block_eq_of_data hframe hdata]

/-- Storing the inode does not change the bytes of the file. -/
theorem fileByte_final {position : ℕ} (hindex : position / bsize < ndirect)
    (hnonzero : result.dinode.addr (position / bsize) ≠ 0) :
    fileByte next (result.grow (offset + data.length)).dinode position =
      fileByte middle result.dinode position := by
  rw [fileByte, fileByte, addr_grow, hdone.wrote.changes.block_eq]
  rw [Set.mem_singleton_iff, hdone.toNat_inodeBlock_middle]
  intro heq
  apply (hdone.pointer_own hindex.le hnonzero).2
  rw [heq]
  exact .inl (inodeBlock_mem_metadata hdone.sound.layout hdone.inum_lt)

/-- The file holds the old bytes overwritten by the data. -/
theorem contents_own :
    contents next (result.grow (offset + data.length)).dinode =
      overwrite (contents files.vol (files.inodes inum).dinode) offset data := by
  have hoffset := hdone.offset_le
  have hend := hdone.end_le
  have hbyte : ∀ position, position < max (files.inodes inum).dinode.size.toNat
        (offset + data.length) → position < ndirect * bsize →
      fileByte next (result.grow (offset + data.length)).dinode position =
        fileByte middle result.dinode position := by
    intro position hsize hrange
    have hindex := div_lt_of_lt hrange
    exact hdone.fileByte_final hindex (hdone.mapped_final hindex
      (lt_of_le_of_lt (Nat.div_mul_le_self position bsize) hsize))
  have hkept : ∀ position, position < (files.inodes inum).dinode.size.toNat →
      position < ndirect * bsize → (position < offset ∨ offset + data.length ≤ position) →
      fileByte middle result.dinode position =
        fileByte files.vol (files.inodes inum).dinode position := by
    intro position hsize hrange houtside
    have hindex := div_lt_of_lt hrange
    exact hdone.written.stored.unwritten position hindex
      (hdone.sound.mapped inum hdone.inum_lt _ hindex
        (lt_of_le_of_lt (Nat.div_mul_le_self position bsize) hsize)) houtside
  have hsize : min (max (files.inodes inum).dinode.size.toNat
      (offset + data.length)) (ndirect * bsize) =
        max (min (files.inodes inum).dinode.size.toNat (ndirect * bsize))
          (offset + data.length) := by omega
  rw [contents, hdone.size_final, hsize]
  apply overwrite_map_range
  · omega
  · intro position hposition houtside
    rw [hbyte position (by omega) (by omega)]
    exact hkept position (by omega) (by omega) houtside
  · intro position hle hlt
    rw [hbyte position (by omega) (by omega)]
    exact (hdone.written.stored.written position hle hlt).2

end WriteDone

end Write

/-! ## Sequences of calls -/

section Calls

variable {files : Files} {model : Model}

theorem ensures_onInode {Value : Type} {inum : ℕ} {method : InodeData → FsM (Value × InodeData)}
    {returned : Value → Files → Prop} {stopped : Stop → Files → Prop} :
    Ensures (onInode inum method) files returned stopped ↔
      Ensures (method (files.inodes inum)) files.vol (fun result vol => returned result.1
          (afterWrite files inum result.2 vol))
        (fun cause vol => stopped cause { files with vol := vol }) := by
  unfold Ensures onInode
  cases method (files.inodes inum) files.vol <;> rfl

theorem ensures_onVolume {call : FsM Unit} {returned : Unit → Files → Prop}
    {stopped : Stop → Files → Prop} :
    Ensures (onVolume call) files returned stopped ↔ Ensures call files.vol
        (fun value vol => returned value { files with vol := vol })
        (fun cause vol => stopped cause { files with vol := vol }) := by
  unfold Ensures onVolume
  cases call files.vol <;> rfl

theorem Keeps.block_eq_of_le {next : Volume} (hlayout : Layout files.vol.sb)
    (hkeeps : Keeps files.vol.sb.logArea files.vol next) {blockno : ℕ}
    (hle : files.vol.sb.inodestart ≤ blockno) :
    next.block blockno = files.vol.block blockno :=
  hkeeps.block_eq blockno (not_contains_of_le hlayout hle)

/-- A transaction boundary keeps the files. -/
theorem Refines.of_keeps {next : Volume} {opened : ℕ} (hrefines : Refines files model)
    (hkeeps : Keeps files.vol.sb.logArea files.vol next)
    (hopened : next.logged.log.outstanding = opened) :
    Refines { files with vol := next } { model with opened := opened } := by
  have hslots : slots = ndirect + 1 + nindirect := rfl
  have hlayout := hrefines.layout
  have hsb := hkeeps.sb_eq
  have hblock : ∀ blockno, files.vol.sb.inodestart ≤ blockno →
      next.block blockno = files.vol.block blockno := fun _ => Keeps.block_eq_of_le hlayout hkeeps
  have hinUse : ∀ blockno, InUse files.vol blockno → InUse next blockno := by
    intro blockno hold
    have hplace := le_of_mem_bitmapBlocks hold.1
    rw [InUse, Volume.marked, hsb, hblock _ (hlayout.table_le.trans hplace)]
    exact hold
  have hdata : ∀ inum < files.vol.sb.ninodes, ∀ index ≤ ndirect,
      (files.inodes inum).dinode.addr index ≠ 0 →
      next.block ((files.inodes inum).dinode.addr index).toNat =
        files.vol.block ((files.inodes inum).dinode.addr index).toNat := by
    intro inum hinum index hindex hnonzero
    have hmeta := hrefines.data inum hinum index (by omega)
    rw [pointer_of_le _ _ hindex] at hmeta
    exact hblock _ (hlayout.table_le.trans (bmapstart_le_of_notMem hlayout (hmeta hnonzero)))
  have hpointer : ∀ inum < files.vol.sb.ninodes, ∀ slot,
      pointer next.block (files.inodes inum).dinode slot =
        pointer files.vol.block (files.inodes inum).dinode slot := by
    intro inum hinum slot
    by_cases hslot : slot ≤ ndirect
    · rw [pointer_of_le _ _ hslot, pointer_of_le _ _ hslot]
    · exact pointer_congr (by omega) rfl
        fun hnonzero => hdata inum hinum ndirect (Nat.le_refl _) hnonzero
  refine ⟨hrefines.toSound.of_pointers hsb hinUse hkeeps.recording
    hrefines.inum_eq ?_ (fun inum hinum slot _ => hpointer inum hinum slot)
    hrefines.mapped, hopened, ?_, ?_⟩ <;> dsimp only
  · intro inum hinum
    rw [onDisk, hsb, hblock (inodeBlock files.vol.sb inum) (Nat.le_add_left _ _)]
    exact hrefines.loaded inum hinum
  · rw [hsb]
    exact hrefines.size_eq
  · rw [hsb]
    intro inum hinum
    rw [← hrefines.bytes_eq inum hinum]
    apply List.map_congr_left
    intro position hposition
    rw [List.mem_range] at hposition
    have hindex := div_lt_of_lt (show position < ndirect * bsize by omega)
    have hnonzero := hrefines.mapped inum hinum _ hindex
      (lt_of_le_of_lt (Nat.div_mul_le_self position bsize) (by omega))
    rw [fileByte, fileByte, hdata inum hinum _ hindex.le hnonzero]

/-- What one call does: the reply and the arrays of the model, or there is no
room left. -/
theorem ensures_perform (hrefines : Refines files model) (op : Op)
    (hallowed : model.Allowed files.vol.sb.ninodes op) :
    Ensures (perform op) files (fun reply next => reply = (model.step op).1 ∧
        Refines next (model.step op).2 ∧ next.vol.sb = files.vol.sb) OutOfRoom := by
  cases op with
  | write inum offset data =>
    obtain ⟨hinum, hoffset, hend, hopen⟩ := hallowed
    rw [perform, ensures_fmap, ensures_onInode]
    rw [← hrefines.size_eq inum hinum] at hoffset
    rw [← hrefines.opened_eq] at hopen
    have hinum' : (files.inodes inum).inum.toNat < files.vol.sb.ninodes := by
      rw [hrefines.inum_eq inum hinum]
      exact hinum
    refine (ensures_write hend (hrefines.frame inum) (hrefines.holds hinum)
      (hrefines.apart hinum) hinum' hopen).imp ?_ fun _ _ => Or.inl
    rintro _ next ⟨result, middle, hwritten, rfl⟩
    have hdone : WriteDone files inum offset.toNat data result middle next :=
      ⟨hrefines.toSound, hinum, hwritten, hoffset, hend⟩
    refine ⟨rfl, ⟨hdone.sound_after, ?_, ?_, ?_⟩, hdone.sb_eq⟩
    · exact hdone.changes.outstanding_eq.trans hrefines.opened_eq
    · intro other hother
      change other < next.sb.ninodes at hother
      rw [hdone.sb_eq] at hother
      by_cases hsame : other = inum
      · simp only [Model.step, hsame, afterWrite_self, update_self,
          hdone.size_final, hrefines.size_eq inum hinum]
      · simp only [Model.step, afterWrite_of_ne _ _ _ hsame, update_of_ne hsame]
        exact hrefines.size_eq other hother
    · intro other hother
      change other < next.sb.ninodes at hother
      rw [hdone.sb_eq] at hother
      change contents next _ = _
      by_cases hsame : other = inum
      · simp only [Model.step, hsame, afterWrite_self, update_self,
          hdone.contents_own, hrefines.bytes_eq inum hinum]
      · simp only [Model.step, afterWrite_of_ne _ _ _ hsame, update_of_ne hsame]
        rw [hdone.contents_other hother hsame]
        exact hrefines.bytes_eq other hother
  | read inum offset count =>
    obtain ⟨hinum, hend, hrange⟩ := hallowed
    rw [← hrefines.size_eq inum hinum] at hend
    rw [perform, ensures_fmap, ensures_onInode]
    have hread := read_eq files.vol hend fun position hle hlt => by
      have hindex := div_lt_of_lt (show position < ndirect * bsize by omega)
      exact ⟨hindex, hrefines.mapped inum hinum _ hindex
        (lt_of_le_of_lt (Nat.div_mul_le_self position bsize) (by omega))⟩
    refine ensures_of_eq_ok hread ⟨?_, ?_, rfl⟩
    · simp only [Model.step, ← hrefines.bytes_eq inum hinum]
      rw [contents, take_drop_map_range _ (by omega)]
    · have hsame : afterWrite files inum (files.inodes inum) files.vol =
          files := by rw [afterWrite, update_eq_self]
      change Refines (afterWrite files inum (files.inodes inum) files.vol) _
      rw [hsame]
      exact hrefines
  | beginOp =>
    rw [perform, ensures_fmap, ensures_onVolume]
    refine (ensures_beginOp hrefines.recording).imp ?_ fun _ _ => Or.inr
    rintro _ next ⟨hkeeps, hopened⟩
    rw [hrefines.opened_eq] at hopened
    exact ⟨rfl, hrefines.of_keeps hkeeps hopened, hkeeps.sb_eq⟩
  | endOp =>
    rw [perform, ensures_fmap, ensures_onVolume]
    have hopen : 0 < model.opened := hallowed
    rw [← hrefines.opened_eq] at hopen
    refine (ensures_endOp hrefines.recording hopen).imp ?_ fun _ _ hfalse => hfalse.elim
    rintro _ next ⟨hkeeps, hopened⟩
    rw [hrefines.opened_eq] at hopened
    refine ⟨rfl, hrefines.of_keeps hkeeps ?_, hkeeps.sb_eq⟩
    omega

/-- In every sequence of allowed calls the files of a sound volume behave as
byte arrays: every write returns its length, every read returns the bytes of
the array, and the volume stays sound; unless bitmap or log run out. -/
theorem performAll_refines {ops : List Op} (hrefines : Refines files model)
    (hallowed : model.AllAllowed files.vol.sb.ninodes ops) :
    Ensures (performAll ops) files (fun replies next => replies = (model.run ops).1 ∧
        Refines next (model.run ops).2) OutOfRoom := by
  induction ops generalizing files model with
  | nil => exact ⟨rfl, hrefines⟩
  | cons op ops ih =>
    obtain ⟨hfirst, hrest⟩ := hallowed
    refine (ensures_perform hrefines op hfirst).bind ?_
    rintro _ next ⟨rfl, hnext, hsb⟩
    rw [← hsb] at hrest
    refine (ih hnext hrest).bind ?_
    rintro _ final ⟨rfl, hfinal⟩
    exact ⟨rfl, hfinal⟩

end Calls

/-! ## An example -/

def sampleFiles : Files where
  vol := sampleVolume
  inodes := fun inum => { valid := true, inum := .ofNat inum, dinode := DiskInode.new }

def sampleModel : Model where
  files := fun _ => { size := 0, bytes := [] }
  opened := 1

theorem refines_sample : Refines sampleFiles sampleModel := by
  have haddr : ∀ index, DiskInode.new.addr index = 0 := by
    intro index
    simp [DiskInode.new, DiskInode.addr]
  have hpointer : ∀ inum slot,
      pointer sampleFiles.vol.block (sampleFiles.inodes inum).dinode slot = 0 := by
    intro inum slot
    simp [sampleFiles, pointer, recorded, haddr]
  refine ⟨⟨layout_sampleSb, ?_, ?_, ?_, ?_, ?_, ?_, ?_, ?_⟩, rfl, ?_, ?_⟩
  · rintro blockno ⟨other, hother, hle⟩
    change blockno ≤ sampleSb.locateBmp other at hle
    have hplace := mem_bitmapBlocks_sampleSb.mp ⟨other, hother, rfl⟩
    exact inUse_sampleVolume (by omega)
  · exact ⟨rfl, rfl, rfl, fits_of_empty rfl⟩
  · change ∀ inum < 16, _
    decide
  · intro inum hinum
    change inum < 16 at hinum
    have hplace : inum / ipb = 0 := Nat.div_eq_of_lt hinum
    have hzero : sampleFiles.vol.block (inodeBlock sampleFiles.vol.sb inum) = fun _ => 0 := by
      rw [inodeBlock, hplace]
      rfl
    rw [onDisk, hzero, DiskInode.load_zero]
    rfl
  · intro inum _ slot _ hnonzero
    exact absurd (hpointer inum slot) hnonzero
  · intro inum _ slot _ hnonzero
    exact absurd (hpointer inum slot) hnonzero
  · intro left _ leftSlot _ right _ rightSlot _ hnonzero
    exact absurd (hpointer left leftSlot) hnonzero
  · intro inum _ index _ hsize
    exact absurd hsize (Nat.not_lt_zero _)
  · intro inum _
    rfl
  · intro inum _
    rfl

def sampleOps : List Op :=
  [.write 3 0 [7, 8, 9], .read 3 1 2]

theorem performAll_refines_sample :
    ∃ replies next, performAll sampleOps sampleFiles = .ok replies next ∧
      replies = [.wrote (.ok 3), .bytes (.ok [8, 9])] ∧ Sound next := by
  have hallowed : sampleModel.AllAllowed sampleFiles.vol.sb.ninodes
      sampleOps := by
    simp only [sampleOps, Model.AllAllowed, Model.Allowed]
    decide
  have hensures := performAll_refines refines_sample hallowed
  have hreturns : (match performAll sampleOps sampleFiles with
      | .ok _ _ => true
      | .error _ _ => false) = true := by decide +kernel
  cases hrun : performAll sampleOps sampleFiles with
  | ok replies next =>
    obtain ⟨hreplies, hrefines⟩ := hensures.eq_ok hrun
    exact ⟨replies, next, rfl, hreplies, hrefines.toSound⟩
  | error cause next =>
    rw [hrun] at hreturns
    cases hreturns

end RxOs.FileRefinement
