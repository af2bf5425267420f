import RxOs.Fs.BitMap

/-!
# On-disk inodes

The inode record of 64 bytes, sixteen of them to a block, and the in-memory copy
that `InodeData` keeps of one of them.
-/

namespace RxOs.Dinode

open Function ByteView Exec Params Blocks BitMap

inductive InodeType
  | empty
  | directory
  | file
  | device
  deriving DecidableEq, Repr

/-- The discriminant that `#[repr(u16)]` stores. -/
def InodeType.toU16 : InodeType → UInt16
  | .empty => 0
  | .directory => 1
  | .file => 2
  | .device => 3

/-- The type with the given discriminant.  No kernel code stores any other
number in an inode; reading one as an `InodeType` would be undefined. -/
def InodeType.ofU16 (word : UInt16) : InodeType :=
  if word = 1 then .directory
  else if word = 2 then .file
  else if word = 3 then .device
  else .empty

@[simp]
theorem InodeType.ofU16_toU16 (itype : InodeType) : InodeType.ofU16 itype.toU16 = itype := by
  cases itype <;> rfl

structure DiskInode where
  itype : InodeType
  major : Int16
  minor : Int16
  nlink : Int16
  size : UInt32
  addrs : Fin (ndirect + 1) → UInt32
  deriving DecidableEq

namespace DiskInode

/-- Block address number `index`. -/
def addr (dinode : DiskInode) (index : ℕ) : UInt32 :=
  if h : index < ndirect + 1 then dinode.addrs ⟨index, h⟩ else 0

/-- Store block address number `index`. -/
def setAddr (dinode : DiskInode) (index : ℕ) (blockno : UInt32) : DiskInode :=
  { dinode with
    addrs := fun slot => if slot.val = index then blockno else dinode.addrs slot }

/-- `DiskInode::new`, and the zeroed record of `try_alloc`. -/
def new : DiskInode where
  itype := .empty
  major := 0
  minor := 0
  nlink := 0
  size := 0
  addrs := fun _ => 0

theorem addr_setAddr (dinode : DiskInode) {index : ℕ} (blockno : UInt32)
    (hindex : index < ndirect + 1) (other : ℕ) :
    (dinode.setAddr index blockno).addr other =
      if other = index then blockno else dinode.addr other := by
  unfold addr setAddr
  by_cases hother : other = index
  · simp [hother, hindex]
  · simp [hother]

theorem ext_addr {left right : DiskInode} (hitype : left.itype = right.itype)
    (hmajor : left.major = right.major) (hminor : left.minor = right.minor)
    (hnlink : left.nlink = right.nlink) (hsize : left.size = right.size)
    (haddr : ∀ index < ndirect + 1, left.addr index = right.addr index) :
    left = right := by
  cases left
  cases right
  simp only [mk.injEq] at *
  refine ⟨hitype, hmajor, hminor, hnlink, hsize, ?_⟩
  funext slot
  have hslot := haddr slot.val slot.isLt
  rwa [addr, addr, dif_pos slot.isLt, dif_pos slot.isLt] at hslot

/-- The record at `offset` of an inode block. -/
def load (block : Block) (offset : ℕ) : DiskInode where
  itype := .ofU16 (u16At block offset)
  major := (u16At block (offset + 2)).toInt16
  minor := (u16At block (offset + 4)).toInt16
  nlink := (u16At block (offset + 6)).toInt16
  size := u32At block (offset + 8)
  addrs := fun slot => u32At block (offset + 12 + 4 * slot.val)

theorem load_zero (offset : ℕ) : load (fun _ => 0) offset = new := by
  have hbyte : ∀ index, byteAt (fun _ => 0 : Block) index = 0 := by
    intro index
    simp [byteAt]
  simp [load, new, u16At, u32At, hbyte, InodeType.ofU16]

/-- An inode block with the record at `offset` overwritten. -/
def store (block : Block) (offset : ℕ) (dinode : DiskInode) : Block :=
  let typed := writeU16 block offset dinode.itype.toU16
  let majored := writeU16 typed (offset + 2) dinode.major.toUInt16
  let minored := writeU16 majored (offset + 4) dinode.minor.toUInt16
  let linked := writeU16 minored (offset + 6) dinode.nlink.toUInt16
  let sized := writeU32 linked (offset + 8) dinode.size
  writeU32s sized (offset + 12) (ndirect + 1) dinode.addr

/-- What is stored is loaded again. -/
theorem load_store (block : Block) {offset : ℕ} (dinode : DiskInode)
    (hfits : offset + dinodeSize ≤ bsize) : load (store block offset dinode) offset = dinode := by
  have hsize : dinodeSize = 64 := rfl
  have hcount : ndirect + 1 = 13 := rfl
  rw [hsize] at hfits
  have hu32 : @writeU32 bsize = fun bytes position word =>
      writeU32s bytes position 1 fun _ => word := rfl
  apply ext_addr
  · simp only [load, store, hu32]
    rw [u16At_writeU32s_off _ _ (by omega), u16At_writeU32s_off _ _ (by omega),
      u16At_writeU16_off _ _ (by omega), u16At_writeU16_off _ _ (by omega),
      u16At_writeU16_off _ _ (by omega), u16At_writeU16 _ _ (by omega), InodeType.ofU16_toU16]
  · simp only [load, store, hu32]
    rw [u16At_writeU32s_off _ _ (by omega), u16At_writeU32s_off _ _ (by omega),
      u16At_writeU16_off _ _ (by omega), u16At_writeU16_off _ _ (by omega),
      u16At_writeU16 _ _ (by omega)]
    rfl
  · simp only [load, store, hu32]
    rw [u16At_writeU32s_off _ _ (by omega), u16At_writeU32s_off _ _ (by omega),
      u16At_writeU16_off _ _ (by omega), u16At_writeU16 _ _ (by omega)]
    rfl
  · simp only [load, store, hu32]
    rw [u16At_writeU32s_off _ _ (by omega), u16At_writeU32s_off _ _ (by omega),
      u16At_writeU16 _ _ (by omega)]
    rfl
  · simp only [load, store]
    rw [u32At_writeU32s_off _ _ (by omega), u32At_writeU32 _ _ (by omega)]
  · intro index hindex
    simp only [load, store, addr, dif_pos hindex]
    rw [u32At_writeU32s _ _ index (by omega) hindex, addr, dif_pos hindex]

/-- Bytes outside the record stay. -/
theorem byteAt_store (block : Block) (offset : ℕ) (dinode : DiskInode)
    {index : ℕ} (houtside : index < offset ∨ offset + dinodeSize ≤ index) :
    byteAt (store block offset dinode) index = byteAt block index := by
  have hsize : dinodeSize = 64 := rfl
  have hcount : ndirect + 1 = 13 := rfl
  rw [hsize] at houtside
  simp only [store, writeU32]
  rw [byteAt_writeU32s, if_neg (by omega), byteAt_writeU32s,
    if_neg (by omega), byteAt_writeU16, if_neg (by omega), byteAt_writeU16,
    if_neg (by omega), byteAt_writeU16, if_neg (by omega), byteAt_writeU16, if_neg (by omega)]

/-- A record depends on its own bytes only. -/
theorem load_congr {left right : Block} {offset : ℕ}
    (hbyte : ∀ index, offset ≤ index → index < offset + dinodeSize →
      byteAt left index = byteAt right index) : load left offset = load right offset := by
  have hsize : dinodeSize = 64 := rfl
  have hcount : ndirect + 1 = 13 := rfl
  have hword : ∀ position, offset ≤ position → position + 2 ≤ offset + 64 →
      u16At left position = u16At right position := by
    intro position hle hlt
    exact u16At_congr fun lane hlane => hbyte _ (by omega) (by omega)
  have hlong : ∀ position, offset ≤ position → position + 4 ≤ offset + 64 →
      u32At left position = u32At right position := by
    intro position hle hlt
    exact u32At_congr fun lane hlane => hbyte _ (by omega) (by omega)
  unfold load
  rw [hword offset (by omega) (by omega), hword (offset + 2) (by omega) (by omega),
    hword (offset + 4) (by omega) (by omega), hword (offset + 6) (by omega) (by omega),
    hlong (offset + 8) (by omega) (by omega)]
  congr 1
  funext slot
  have hslot := slot.isLt
  exact hlong _ (by omega) (by omega)

end DiskInode

/-! ## Pointers -/

/-- The block number recorded for an index of the file, zero if there is
none. -/
def recorded (blocks : ℕ → Block) (dinode : DiskInode) (index : ℕ) : UInt32 :=
  if index < ndirect then dinode.addr index
  else if dinode.addr ndirect = 0 then 0
  else u32At (blocks (dinode.addr ndirect).toNat) (4 * (index - ndirect))

/-- All pointers of an inode: the direct addresses, the address of the indirect
block and the words of that block. -/
def pointer (blocks : ℕ → Block) (dinode : DiskInode) (slot : ℕ) : UInt32 :=
  if slot ≤ ndirect then dinode.addr slot else recorded blocks dinode (slot - 1)

theorem recorded_of_lt {blocks : ℕ → Block} {dinode : DiskInode} {index : ℕ}
    (hindex : index < ndirect) : recorded blocks dinode index = dinode.addr index := by
  rw [recorded, if_pos hindex]

theorem pointer_of_le (blocks : ℕ → Block) (dinode : DiskInode) {slot : ℕ}
    (hslot : slot ≤ ndirect) : pointer blocks dinode slot = dinode.addr slot := by
  rw [pointer, if_pos hslot]

/-- The words of an indirect block stay when the block does. -/
theorem pointer_congr {blocks changed : ℕ → Block}
    {dinode dinode' : DiskInode} {slot : ℕ} (hslot : ndirect < slot)
    (haddr : dinode'.addr ndirect = dinode.addr ndirect) (hblock : dinode.addr ndirect ≠ 0 →
      changed (dinode.addr ndirect).toNat = blocks (dinode.addr ndirect).toNat) :
    pointer changed dinode' slot = pointer blocks dinode slot := by
  have hle : ¬slot ≤ ndirect := by omega
  have hlt : ¬slot - 1 < ndirect := by omega
  simp only [pointer, recorded, if_neg hle, if_neg hlt, haddr]
  split
  · rfl
  · next hnonzero => rw [hblock hnonzero]

/-- `locate_inode_offset`, in bytes. -/
def locateInodeOffset (inum : UInt32) : ℕ :=
  dinodeSize * (inum.toNat % ipb)

/-- `DiskInode::find_inode`: the buffer that holds the inode and its number. -/
def findInode (inum : UInt32) : FsM (UInt32 × Block) := do
  let blockno ← orPanic ((← get).sb.locateInode inum.toNat)
  let buf ← bread blockno
  return (.ofNat blockno, buf)

/-- The loop of `DiskInode::alloc`. -/
def DiskInode.allocFrom : (remaining inum : ℕ) → InodeType → FsM UInt32
  | 0, _, _ => throw (.panic .inodesExhausted)
  | remaining + 1, inum, itype => do
    let offset := locateInodeOffset (.ofNat inum)
    let (blockno, buf) ← findInode (.ofNat inum)
    if (DiskInode.load buf offset).itype = .empty then
      logWrite blockno (DiskInode.store buf offset { DiskInode.new with itype := itype })
      return .ofNat inum
    else DiskInode.allocFrom remaining (inum + 1) itype

def DiskInode.alloc (itype : InodeType) : FsM UInt32 := do
  DiskInode.allocFrom ((← get).sb.size - 1) 1 itype

end RxOs.Dinode
