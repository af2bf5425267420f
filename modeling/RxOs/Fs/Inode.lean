import RxOs.Fs.Dinode

/-!
# The data of an inode

`InodeData` is the in-memory copy of an on-disk inode, and its methods turn
positions in the file into positions in blocks: `map` finds or allocates the
block of an index, `read` and `write` walk over the blocks of a range, `truncate`
gives all blocks back and `update` stores the copy in the inode table.
-/

namespace RxOs.Inode

open Function ByteView Exec Params Blocks BitMap Dinode

structure InodeData where
  valid : Bool
  inum : UInt32
  dinode : DiskInode

namespace InodeData

def withDinode (idata : InodeData) (dinode : DiskInode) : InodeData :=
  { idata with dinode := dinode }

def update (idata : InodeData) : FsM Unit := do
  let (blockno, buf) ← findInode idata.inum
  logWrite blockno (DiskInode.store buf (locateInodeOffset idata.inum) idata.dinode)

/-- `InodeData::map`.  It never returns an error.  In the indirect range the
test of `addrs[NDIRECT]` is the source's, and the result stays zero when the
slot of the indirect block is already in use. -/
def map (idata : InodeData) (offsetBn : ℕ) : FsM (UInt32 × InodeData) :=
  if offsetBn < ndirect then
    if idata.dinode.addr offsetBn = 0 then do
      let addr ← BitMap.alloc
      return (addr, idata.withDinode (idata.dinode.setAddr offsetBn addr))
    else return (idata.dinode.addr offsetBn, idata)
  else if offsetBn < nindirect + ndirect then do
    let slot := offsetBn - ndirect
    let idata ←
      if idata.dinode.addr ndirect ≠ 0 then do
        let addrBufNum ← BitMap.alloc
        pure (idata.withDinode (idata.dinode.setAddr ndirect addrBufNum))
      else pure idata
    let addrBlock := idata.dinode.addr ndirect
    let buf ← bread addrBlock.toNat
    if u32At buf (4 * slot) = 0 then do
      let addr ← BitMap.alloc
      logWrite addrBlock (writeU32 buf (4 * slot) addr)
      return (addr, idata)
    else return (0, idata)
  else return (0, idata)

/-- The loop of `InodeData::read`; the bytes are those handed to
`copy_from_kernel`, in order.  Every round takes at least one byte, so `len`
rounds are enough. -/
def readLoop : (fuel : ℕ) → InodeData → (offset len : ℕ) → FsM (List UInt8 × InodeData)
  | 0, idata, _, _ => return ([], idata)
  | fuel + 1, idata, offset, len =>
    if len = 0 then return ([], idata)
    else do
      let (blockNo, idata) ← idata.map (offset / bsize)
      let buf ← bread blockNo.toNat
      let writeLen := min len (bsize - offset % bsize)
      let (rest, idata) ← readLoop fuel idata (offset + writeLen) (len - writeLen)
      return (slice buf (offset % bsize) writeLen ++ rest, idata)

def read (idata : InodeData) (offset count : UInt32) :
    FsM (Except String (List UInt8) × InodeData) :=
  if 4294967296 ≤ offset.toNat + count.toNat then
    return (.error "Failed to add count.", idata)
  else if idata.dinode.size.toNat < offset.toNat + count.toNat then
    return (.error "inode read: end is more than diskinode's size", idata)
  else do
    let (bytes, idata) ← readLoop count.toNat idata offset.toNat count.toNat
    return (.ok bytes, idata)

/-- The loop of `InodeData::write`; `data` are the bytes that
`copy_to_kernel` fetches. -/
def writeLoop : (fuel : ℕ) → InodeData → (offset : ℕ) → (data : List UInt8) → FsM InodeData
  | 0, idata, _, _ => return idata
  | fuel + 1, idata, offset, data =>
    if data.length = 0 then return idata
    else do
      let (blockNo, idata) ← idata.map (offset / bsize)
      let buf ← bread blockNo.toNat
      let readLen := min data.length (bsize - offset % bsize)
      logWrite blockNo (splice buf (offset % bsize) (data.take readLen))
      writeLoop fuel idata (offset + readLen) (data.drop readLen)

/-- The new size after a write that ended at `offset`. -/
def grow (idata : InodeData) (offset : ℕ) : InodeData :=
  if idata.dinode.size < UInt32.ofNat offset then
    idata.withDinode { idata.dinode with size := .ofNat offset }
  else idata

def write (idata : InodeData) (offset : UInt32) (data : List UInt8) :
    FsM (Except String ℕ × InodeData) := do
  let idata ← writeLoop data.length idata offset.toNat data
  let idata := idata.grow (offset.toNat + data.length)
  idata.update
  return (.ok data.length, idata)

/-- `BitMap::free` while the caller holds the buffer of block `held`.  If that
is the bitmap block, the call waits for the caller's own buffer. -/
def freeHolding (held : ℕ) (blockno : UInt32) : FsM Unit := do
  if (← get).sb.bmapstart = held then throw .sleep
  else BitMap.free blockno

def freeAll (free : UInt32 → FsM Unit) (addrs : List UInt32) : FsM Unit :=
  addrs.forM fun addr => if 0 < addr then free addr else pure ()

/-- `InodeData::truncate`; the indirect block is held while its entries are
freed. -/
def truncate (idata : InodeData) : FsM InodeData := do
  freeAll BitMap.free ((List.range ndirect).map idata.dinode.addr)
  let addrBlock := idata.dinode.addr ndirect
  if 0 < addrBlock then do
    let buf ← bread addrBlock.toNat
    freeAll (freeHolding addrBlock.toNat)
      ((List.range nindirect).map fun slot => u32At buf (4 * slot))
    BitMap.free addrBlock
  let idata := idata.withDinode { idata.dinode with size := 0, addrs := fun _ => 0 }
  idata.update
  return idata

end InodeData

/-! ## The direct addresses of one inode -/

/-- Blocks that do not belong to the inode at hand.  They are in use; block 0
and the bitmap are among them. -/
structure Frame (frame : Set ℕ) (vol : Volume) : Prop where
  layout : Layout vol.sb
  inUse : ∀ blockno ∈ frame, InUse vol blockno
  zero : 0 ∈ frame
  bitmap : bitmapBlocks vol.sb ⊆ frame

/-- The addresses of the inode are in use and pairwise distinct. -/
structure Holds (vol : Volume) (dinode : DiskInode) : Prop where
  inUse : ∀ index < ndirect + 1, dinode.addr index ≠ 0 → InUse vol (dinode.addr index).toNat
  distinct : ∀ left < ndirect + 1, ∀ right < ndirect + 1,
    dinode.addr left ≠ 0 → dinode.addr left = dinode.addr right → left = right

/-- The addresses of the inode lie outside the frame. -/
def Apart (frame : Set ℕ) (dinode : DiskInode) : Prop :=
  ∀ index < ndirect + 1, dinode.addr index ≠ 0 → (dinode.addr index).toNat ∉ frame

variable {frame : Set ℕ} {vol next : Volume} {idata : InodeData}

/-- Changes outside the bitmap keep the frame. -/
theorem Frame.of_changes {touched : Set ℕ} (hframe : Frame frame vol)
    (hchanges : Changes touched vol next)
    (hdisjoint : ∀ place ∈ bitmapBlocks vol.sb, place ∉ touched) :
    Frame frame next where
  layout := hchanges.sb_eq ▸ hframe.layout
  inUse := fun blockno hmem => (inUse_of_changes hchanges hdisjoint blockno).mpr
      (hframe.inUse blockno hmem)
  zero := hframe.zero
  bitmap := hchanges.sb_eq ▸ hframe.bitmap

theorem Holds.of_changes {touched : Set ℕ} {dinode : DiskInode}
    (hholds : Holds vol dinode) (hchanges : Changes touched vol next)
    (hdisjoint : ∀ place ∈ bitmapBlocks vol.sb, place ∉ touched) :
    Holds next dinode where
  inUse := fun index hindex hnonzero => (inUse_of_changes hchanges hdisjoint _).mpr
      (hholds.inUse index hindex hnonzero)
  distinct := hholds.distinct

theorem Frame.allocated {blockno : UInt32} (hframe : Frame frame vol)
    (hallocated : Allocated blockno vol next) : Frame frame next := by
  have hsb := hallocated.wrote.sb_eq
  refine ⟨hsb ▸ hframe.layout, ?_, hframe.zero, hsb ▸ hframe.bitmap⟩
  intro other hmem
  rw [hallocated.inUse_iff hframe.layout]
  exact .inr (hframe.inUse other hmem)

/-- A freshly allocated block extends what the inode holds. -/
theorem Holds.setAddr {dinode : DiskInode} {blockno : UInt32} {index : ℕ}
    (hholds : Holds vol dinode) (hlayout : Layout vol.sb)
    (hallocated : Allocated blockno vol next) (hindex : index < ndirect + 1) :
    Holds next (dinode.setAddr index blockno) := by
  have hnew : ∀ other < ndirect + 1, dinode.addr other ≠ 0 → dinode.addr other ≠ blockno := by
    intro other hother hnonzero heq
    exact hallocated.not_inUse (heq ▸ hholds.inUse other hother hnonzero)
  refine ⟨?_, ?_⟩
  · intro other hother hnonzero
    rw [hallocated.inUse_iff hlayout]
    rw [DiskInode.addr_setAddr _ _ hindex] at hnonzero ⊢
    split at hnonzero
    · next hsame => exact .inl (by rw [if_pos hsame])
    · next hdiff =>
        rw [if_neg hdiff]
        exact .inr (hholds.inUse other hother hnonzero)
  · intro left hleft right hright hnonzero heq
    rw [DiskInode.addr_setAddr _ _ hindex] at hnonzero heq
    rw [DiskInode.addr_setAddr _ _ hindex] at heq
    by_cases hl : left = index <;> by_cases hr : right = index
    · rw [hl, hr]
    · rw [if_pos hl, if_neg hr] at heq
      rw [if_pos hl] at hnonzero
      exact absurd heq.symm (hnew right hright (heq ▸ hnonzero))
    · rw [if_neg hl, if_pos hr] at heq
      rw [if_neg hl] at hnonzero
      exact absurd heq (hnew left hleft hnonzero)
    · rw [if_neg hl, if_neg hr] at heq
      rw [if_neg hl] at hnonzero
      exact hholds.distinct left hleft right hright hnonzero heq

theorem Apart.setAddr {dinode : DiskInode} {blockno : UInt32} {index : ℕ}
    (hapart : Apart frame dinode) (hframe : Frame frame vol)
    (hfresh : ¬InUse vol blockno.toNat) (hindex : index < ndirect + 1) :
    Apart frame (dinode.setAddr index blockno) := by
  intro other hother hnonzero hmem
  rw [DiskInode.addr_setAddr _ _ hindex] at hnonzero hmem
  split at hnonzero
  · next hsame =>
      rw [if_pos hsame] at hmem
      exact hfresh (hframe.inUse _ hmem)
  · next hdiff =>
      rw [if_neg hdiff] at hmem
      exact hapart other hother hnonzero hmem

theorem setAddr_addr (dinode : DiskInode) (index : ℕ) :
    dinode.setAddr index (dinode.addr index) = dinode := by
  unfold DiskInode.setAddr
  congr 1
  funext slot
  split
  · next hslot =>
      subst hslot
      rw [DiskInode.addr, dif_pos slot.isLt]
  · rfl

/-- What `map` does for a direct index: the address is there already, or it is
allocated. -/
structure Mapped (frame : Set ℕ) (idata : InodeData) (index : ℕ)
    (vol : Volume) (result : UInt32 × InodeData) (next : Volume) : Prop where
  changes : Changes (bitmapBlocks vol.sb) vol next
  framed : Frame frame next
  holds : Holds next result.2.dinode
  nonzero : result.1 ≠ 0
  idata_eq : result.2 = idata.withDinode (idata.dinode.setAddr index result.1)
  inUse_mono : ∀ blockno, InUse vol blockno → InUse next blockno
  cases : (idata.dinode.addr index ≠ 0 ∧ result.1 = idata.dinode.addr index ∧ next = vol) ∨
    (idata.dinode.addr index = 0 ∧ Allocated result.1 vol next)

/-- In the direct range `map` returns the address, allocating it if needed. -/
theorem ensures_map {index : ℕ} (hindex : index < ndirect)
    (hframe : Frame frame vol) (hholds : Holds vol idata.dinode)
    (hopen : 0 < vol.logged.log.outstanding) :
    Ensures (idata.map index) vol (Mapped frame idata index vol)
      (fun cause next => idata.dinode.addr index = 0 ∧ Exhausted cause vol ∧ Halts vol next) := by
  rw [InodeData.map, if_pos hindex]
  split
  · next hzero =>
      refine Ensures.bind ((ensures_alloc hframe.layout hopen).imp
        (fun _ _ h => h) fun _ _ hstop => ⟨hzero, hstop⟩) ?_
      intro blockno final hallocated
      rw [ensures_pure]
      refine ⟨hallocated.changes hframe.layout, hframe.allocated hallocated,
        hholds.setAddr hframe.layout hallocated (Nat.lt_succ_of_lt hindex),
        ?_, rfl, ?_, .inr ⟨hzero, hallocated⟩⟩
      · intro hblock
        apply hallocated.not_inUse
        change blockno = 0 at hblock
        rw [hblock]
        exact hframe.inUse 0 hframe.zero
      · intro other hother
        rw [hallocated.inUse_iff hframe.layout]
        exact .inr hother
  · next hnonzero =>
      rw [ensures_pure]
      refine ⟨Changes.refl _ _, hframe, hholds, hnonzero, ?_, fun _ h => h,
        .inl ⟨hnonzero, rfl, rfl⟩⟩
      rw [setAddr_addr]
      rfl

/-! ## The inode table -/

def inodeBlock (sb : SuperBlock) (inum : ℕ) : ℕ :=
  inum / ipb + sb.inodestart

def onDisk (vol : Volume) (inum : ℕ) : DiskInode :=
  DiskInode.load (vol.block (inodeBlock vol.sb inum)) (dinodeSize * (inum % ipb))

theorem toNat_inodeBlock {sb : SuperBlock} (hlayout : Layout sb) {inum : ℕ}
    (hinum : inum < sb.ninodes) :
    (UInt32.ofNat (inodeBlock sb inum)).toNat = inodeBlock sb inum := by
  have htable := hlayout.inodes_end inum hinum
  have hbitmap := hlayout.bitmap_end 0 hlayout.size_pos
  have hsize := hlayout.size_lt
  rw [SuperBlock.locateBmp, Nat.zero_div, Nat.add_zero] at hbitmap
  exact toNat_ofNat_of_lt (by rw [inodeBlock]; omega)

/-- `update` stores the copy in the inode table. -/
theorem ensures_update (hinum : idata.inum.toNat < vol.sb.ninodes)
    (hopen : 0 < vol.logged.log.outstanding) :
    Ensures idata.update vol (fun _ => Wrote (.ofNat (inodeBlock vol.sb idata.inum.toNat))
        (DiskInode.store (vol.block (inodeBlock vol.sb idata.inum.toNat))
          (dinodeSize * (idata.inum.toNat % ipb)) idata.dinode) vol)
      (fun cause next => LogFull cause vol ∧ Halts vol next) := by
  rw [InodeData.update, findInode]
  simp only [ensures_bind, ensures_get, ensures_pure, SuperBlock.locateInode,
    if_neg (Nat.not_le.mpr hinum)]
  exact ensures_logWrite _ _ hopen

/-- Storing one inode leaves the others in the table alone. -/
theorem Wrote.onDisk_eq {inum other : ℕ} {dinode : DiskInode}
    (hlayout : Layout vol.sb) (hinum : inum < vol.sb.ninodes)
    (hwrote : Wrote (.ofNat (inodeBlock vol.sb inum))
      (DiskInode.store (vol.block (inodeBlock vol.sb inum))
        (dinodeSize * (inum % ipb)) dinode) vol next) :
    onDisk next other = if other = inum then dinode else onDisk vol other := by
  have hfits : dinodeSize * (inum % ipb) + dinodeSize ≤ bsize := by
    have hmod := Nat.mod_lt inum (show 0 < ipb by decide)
    have hipb : ipb = 16 := rfl
    have hdinode : dinodeSize = 64 := rfl
    have hbsize : bsize = 1024 := rfl
    rw [hipb] at hmod ⊢
    rw [hdinode, hbsize]
    omega
  rw [onDisk, hwrote.sb_eq, hwrote.block_eq, toNat_inodeBlock hlayout hinum]
  by_cases hplace : inodeBlock vol.sb other = inodeBlock vol.sb inum
  · rw [hplace, update_self]
    split
    · next hsame => rw [hsame, DiskInode.load_store _ _ hfits]
    · next hdiff =>
        rw [onDisk, hplace]
        apply DiskInode.load_congr
        intro index hle hlt
        apply DiskInode.byteAt_store
        have hipb : ipb = 16 := rfl
        have hdinode : dinodeSize = 64 := rfl
        simp only [inodeBlock, hipb, hdinode] at *
        omega
  · have hdiff : other ≠ inum := by
      rintro rfl
      exact hplace rfl
    rw [update_of_ne hplace, if_neg hdiff, onDisk]

end RxOs.Inode
