import RxOs.Fs.Inode

/-!
# Reading and writing the bytes of one file

In the direct-addressed range of a file every position belongs to one byte of
one block.  `InodeData::read` returns the bytes at the positions of its range
and changes nothing; `InodeData::write` changes those at the positions of its
range and no others, whatever the way in which the range splits into blocks.
-/

namespace RxOs.FileBytes

open Function ByteView Exec Params Blocks BitMap Dinode Inode

def fileByte (vol : Volume) (dinode : DiskInode) (position : ℕ) : UInt8 :=
  byteAt (vol.block (dinode.addr (position / bsize)).toNat) (position % bsize)

/-- Positions between `offset` and the end of its block. -/
theorem div_mod_of_window {offset position : ℕ} (hle : offset ≤ position)
    (hlt : position < offset + (bsize - offset % bsize)) :
    position / bsize = offset / bsize ∧
      position % bsize = offset % bsize + (position - offset) := by
  have hbsize : bsize = 1024 := rfl
  rw [hbsize] at hlt ⊢
  omega

theorem mod_not_mem_window {offset position count : ℕ} (hsame : position / bsize = offset / bsize)
    (houtside : position < offset ∨ offset + count ≤ position) :
    ¬(offset % bsize ≤ position % bsize ∧
      position % bsize < offset % bsize + count ∧ position % bsize < bsize) := by
  have hbsize : bsize = 1024 := rfl
  rw [hbsize] at hsame ⊢
  omega

theorem div_lt_of_lt {position : ℕ} (hlt : position < ndirect * bsize) :
    position / bsize < ndirect :=
  Nat.div_lt_of_lt_mul (by rwa [Nat.mul_comm])

variable {frame : Set ℕ} {vol middle next : Volume}
variable {idata first second : InodeData}

/-! ## Reading -/

/-- One round of the reading loop. -/
theorem slice_eq_fileByte (vol : Volume) (dinode : DiskInode)
    {offset count : ℕ} (hcount : count ≤ bsize - offset % bsize) :
    slice (vol.block (dinode.addr (offset / bsize)).toNat) (offset % bsize) count =
      (List.range count).map fun index =>
        fileByte vol dinode (offset + index) := by
  unfold slice
  apply List.map_congr_left
  intro index hindex
  rw [List.mem_range] at hindex
  obtain ⟨hdiv, hmod⟩ := div_mod_of_window (show offset ≤ offset + index by omega) (by omega)
  rw [fileByte, hdiv, hmod, Nat.add_sub_cancel_left]

/-- Reading allocated positions returns their bytes and changes nothing. -/
theorem readLoop_eq (fuel offset len : ℕ) (hfuel : len ≤ fuel)
    (hmapped : ∀ position, offset ≤ position → position < offset + len →
      position / bsize < ndirect ∧ idata.dinode.addr (position / bsize) ≠ 0) :
    idata.readLoop fuel offset len vol = .ok ((List.range len).map fun index =>
        fileByte vol idata.dinode (offset + index), idata) vol := by
  induction fuel generalizing offset len with
  | zero =>
    obtain rfl : len = 0 := by omega
    rfl
  | succ fuel ih =>
    rw [InodeData.readLoop]
    by_cases hlen : len = 0
    · rw [if_pos hlen, hlen]
      rfl
    · rw [if_neg hlen]
      have hblock : 0 < bsize - offset % bsize := by
        have := Nat.mod_lt offset (show 0 < bsize by decide)
        omega
      obtain ⟨hdirect, hnonzero⟩ := hmapped offset (by omega) (by omega)
      have hmap : idata.map (offset / bsize) vol =
          .ok (idata.dinode.addr (offset / bsize), idata) vol := by
        rw [InodeData.map, if_pos hdirect, if_neg hnonzero]
        rfl
      have hrest := ih (offset + min len (bsize - offset % bsize))
        (len - min len (bsize - offset % bsize)) (by omega)
        fun position hle hlt => hmapped position (by omega) (by omega)
      refine bind_eq_ok.mpr ⟨_, _, hmap, ?_⟩
      refine bind_eq_ok.mpr ⟨_, _, rfl, ?_⟩
      refine bind_eq_ok.mpr ⟨_, _, hrest, ?_⟩
      change EStateM.Result.ok _ _ = _
      congr 2
      have hsplit : len = min len (bsize - offset % bsize) +
          (len - min len (bsize - offset % bsize)) := by omega
      conv_rhs => rw [hsplit, List.range_add]
      rw [List.map_append, List.map_map, slice_eq_fileByte vol idata.dinode (Nat.min_le_right _ _)]
      simp only [comp_def, Nat.add_assoc]

/-- `InodeData::read` of a range that lies inside the file. -/
theorem read_eq (vol : Volume) {offset count : UInt32}
    (hend : offset.toNat + count.toNat ≤ idata.dinode.size.toNat)
    (hmapped : ∀ position, offset.toNat ≤ position → position < offset.toNat + count.toNat →
      position / bsize < ndirect ∧ idata.dinode.addr (position / bsize) ≠ 0) :
    idata.read offset count vol = .ok (.ok ((List.range count.toNat).map fun index =>
        fileByte vol idata.dinode (offset.toNat + index)), idata) vol := by
  have hsize := idata.dinode.size.toNat_lt
  rw [InodeData.read, if_neg (by omega), if_neg (by omega)]
  exact bind_eq_ok.mpr ⟨_, _, readLoop_eq count.toNat offset.toNat count.toNat (Nat.le_refl _)
      hmapped, rfl⟩

/-! ## Writing -/

def dataBlocks (dinode : DiskInode) : Set ℕ :=
  { blockno | ∃ index < ndirect, dinode.addr index ≠ 0 ∧
      (dinode.addr index).toNat = blockno }

/-- `data` has been stored at `offset`, and nothing else has changed but the
addresses and bitmap bits of new blocks. -/
structure Stored (frame : Set ℕ) (idata : InodeData) (offset : ℕ)
    (data : List UInt8) (vol : Volume) (result : InodeData) (next : Volume) :
    Prop where
  changes : Changes (bitmapBlocks vol.sb ∪ dataBlocks result.dinode) vol next
  framed : Frame frame next
  holds : Holds next result.dinode
  apart : Apart frame result.dinode
  same : ∃ addrs, result = idata.withDinode { idata.dinode with addrs := addrs }
  kept : ∀ index, idata.dinode.addr index ≠ 0 → result.dinode.addr index = idata.dinode.addr index
  indirect : result.dinode.addr ndirect = idata.dinode.addr ndirect
  inUse_mono : ∀ blockno, InUse vol blockno → InUse next blockno
  written : ∀ position, offset ≤ position → position < offset + data.length →
    result.dinode.addr (position / bsize) ≠ 0 ∧
      fileByte next result.dinode position = data.getD (position - offset) 0
  unwritten : ∀ position, position / bsize < ndirect → idata.dinode.addr (position / bsize) ≠ 0 →
    (position < offset ∨ offset + data.length ≤ position) →
    fileByte next result.dinode position = fileByte vol idata.dinode position

theorem Stored.nil (hframe : Frame frame vol) (hholds : Holds vol idata.dinode)
    (hapart : Apart frame idata.dinode) (offset : ℕ) :
    Stored frame idata offset [] vol idata vol where
  changes := Changes.refl _ _
  framed := hframe
  holds := hholds
  apart := hapart
  same := ⟨idata.dinode.addrs, rfl⟩
  kept := fun _ _ => rfl
  indirect := rfl
  inUse_mono := fun _ h => h
  written := fun position hle hlt => by
    simp only [List.length_nil] at hlt
    omega
  unwritten := fun _ _ _ _ => rfl

/-- Two stores, one behind the other, are a store of both pieces. -/
theorem Stored.append {offset : ℕ} {left right : List UInt8}
    (hleft : Stored frame idata offset left vol first middle)
    (hright : Stored frame first (offset + left.length) right middle second next)
    (hend : offset + left.length ≤ ndirect * bsize) :
    Stored frame idata offset (left ++ right) vol second next := by
  have hkept : ∀ index, idata.dinode.addr index ≠ 0 →
      second.dinode.addr index = idata.dinode.addr index := by
    intro index hnonzero
    have hfirst := hleft.kept index hnonzero
    rw [hright.kept index (by rw [hfirst]; exact hnonzero), hfirst]
  have hsubset : dataBlocks first.dinode ⊆ dataBlocks second.dinode := by
    rintro blockno ⟨index, hindex, hnonzero, rfl⟩
    have hsame := hright.kept index hnonzero
    exact ⟨index, hindex, by rw [hsame]; exact hnonzero, by rw [hsame]⟩
  refine ⟨?_, hright.framed, hright.holds, hright.apart, ?_, hkept,
    hright.indirect.trans hleft.indirect, ?_, ?_, ?_⟩
  · have hsecond := hright.changes
    rw [hleft.changes.sb_eq] at hsecond
    exact (hleft.changes.mono (Set.union_subset_union_right _ hsubset)).trans hsecond
  · obtain ⟨_, rfl⟩ := hleft.same
    obtain ⟨addrs, rfl⟩ := hright.same
    exact ⟨addrs, rfl⟩
  · intro blockno hinUse
    exact hright.inUse_mono blockno (hleft.inUse_mono blockno hinUse)
  · intro position hle hlt
    rw [List.length_append] at hlt
    by_cases hpiece : position < offset + left.length
    · obtain ⟨hnonzero, hbyte⟩ := hleft.written position hle hpiece
      refine ⟨?_, ?_⟩
      · rw [hright.kept _ hnonzero]
        exact hnonzero
      · rw [hright.unwritten position (div_lt_of_lt (by omega)) hnonzero
          (.inl hpiece), hbyte, List.getD_append _ _ _ _ (by omega)]
    · obtain ⟨hnonzero, hbyte⟩ := hright.written position (by omega) (by omega)
      refine ⟨hnonzero, ?_⟩
      rw [hbyte, List.getD_append_right _ _ _ _ (by omega)]
      congr 1
      omega
  · intro position hdirect hnonzero houtside
    rw [List.length_append] at houtside
    have hfirst := hleft.kept _ hnonzero
    rw [hright.unwritten position hdirect (by rw [hfirst]; exact hnonzero)
      (by omega), hleft.unwritten position hdirect hnonzero (by omega)]

/-- One round of the writing loop: `map`, then a logged store into the block. -/
theorem stored_of_wrote {offset : ℕ} {piece : List UInt8} {blockno : UInt32}
    (hframe : Frame frame vol) (hapart : Apart frame idata.dinode)
    (hdirect : offset / bsize < ndirect) (hpiece : piece.length ≤ bsize - offset % bsize)
    (hmapped : Mapped frame idata (offset / bsize) vol (blockno, first) middle)
    (hwrote : Wrote blockno (splice (middle.block blockno.toNat)
      (offset % bsize) piece) middle next) : Stored frame idata offset piece vol first next := by
  have hnonzero : blockno ≠ 0 := hmapped.nonzero
  have hidata : first = idata.withDinode (idata.dinode.setAddr (offset / bsize) blockno) :=
    hmapped.idata_eq
  have haddr : ∀ index, first.dinode.addr index =
      if index = offset / bsize then blockno else idata.dinode.addr index := by
    intro index
    rw [hidata]
    exact DiskInode.addr_setAddr _ _ (Nat.lt_succ_of_lt hdirect) index
  have hown : first.dinode.addr (offset / bsize) = blockno := by rw [haddr, if_pos rfl]
  have hfirst : Apart frame first.dinode := by
    rw [hidata]
    rcases hmapped.cases with ⟨-, hkept, -⟩ | ⟨-, hallocated⟩
    · change blockno = _ at hkept
      rw [hkept, setAddr_addr]
      exact hapart
    · exact hapart.setAddr hframe hallocated.not_inUse (Nat.lt_succ_of_lt hdirect)
  have hblockno : blockno.toNat ∉ frame := by
    have := hfirst (offset / bsize) (Nat.lt_succ_of_lt hdirect)
    rw [hown] at this
    exact this hnonzero
  have hdisjoint : ∀ place ∈ bitmapBlocks middle.sb, place ∉ ({blockno.toNat} : Set ℕ) := by
    intro place hplace hmem
    rw [Set.mem_singleton_iff] at hmem
    exact hblockno (hmem ▸ hmapped.framed.bitmap hplace)
  have hblock : ∀ other, other ≠ blockno.toNat → other ∉ bitmapBlocks vol.sb →
      next.block other = vol.block other := by
    intro other hother hbitmap
    rw [hwrote.changes.block_eq other (by simpa using hother),
      hmapped.changes.block_eq other hbitmap]
  have hkept : ∀ index, idata.dinode.addr index ≠ 0 →
      first.dinode.addr index = idata.dinode.addr index := by
    intro index hold
    rw [haddr]
    split
    · next heq =>
        subst heq
        rcases hmapped.cases with ⟨-, hkept, -⟩ | ⟨hzero, -⟩
        · exact hkept
        · exact absurd hzero hold
    · rfl
  refine ⟨?_, hmapped.framed.of_changes hwrote.changes hdisjoint,
    hmapped.holds.of_changes hwrote.changes hdisjoint, hfirst, ?_, hkept, ?_, ?_, ?_, ?_⟩
  · refine (hmapped.changes.mono Set.subset_union_left).trans (hwrote.changes.mono ?_)
    rw [Set.singleton_subset_iff]
    exact .inr ⟨_, hdirect, by rw [hown]; exact hnonzero, by rw [hown]⟩
  · exact ⟨first.dinode.addrs, by rw [hidata]; rfl⟩
  · rw [haddr, if_neg (by omega)]
  · intro other hinUse
    exact (inUse_of_changes hwrote.changes hdisjoint other).mpr (hmapped.inUse_mono other hinUse)
  · intro position hle hlt
    obtain ⟨hdiv, hmod⟩ := div_mod_of_window hle
      (show position < offset + (bsize - offset % bsize) by omega)
    have hlane := Nat.mod_lt position (show 0 < bsize by decide)
    rw [fileByte, hdiv, hown]
    refine ⟨hnonzero, ?_⟩
    rw [hwrote.block_eq, update_self, byteAt_splice, hmod,
      if_pos (by omega), Nat.add_sub_cancel_left]
  · intro position hindex hold houtside
    rw [fileByte, fileByte, hkept _ hold]
    by_cases hsame : position / bsize = offset / bsize
    · rcases hmapped.cases with ⟨-, hnumber, rfl⟩ | ⟨hzero, -⟩
      · change blockno = _ at hnumber
        rw [hsame, ← hnumber, hwrote.block_eq, update_self, byteAt_splice,
          if_neg (mod_not_mem_window hsame houtside)]
      · rw [hsame] at hold
        exact absurd hzero hold
    · have hne : (idata.dinode.addr (position / bsize)).toNat ≠ blockno.toNat := by
        intro heq
        have hnumber := UInt32.toNat.inj heq
        apply hsame
        apply hmapped.holds.distinct _ (Nat.lt_succ_of_lt hindex) _ (Nat.lt_succ_of_lt hdirect)
        · rw [hkept _ hold]
          exact hold
        · rw [hkept _ hold, hown, hnumber]
      rw [hblock _ hne]
      intro hbitmap
      exact hapart _ (Nat.lt_succ_of_lt hindex) hold (hframe.bitmap hbitmap)

/-- The writing loop stores all its data or finds the volume exhausted. -/
theorem ensures_writeLoop (fuel offset : ℕ) (data : List UInt8) (hfuel : data.length ≤ fuel)
    (hend : offset + data.length ≤ ndirect * bsize)
    (hframe : Frame frame vol) (hholds : Holds vol idata.dinode) (hapart : Apart frame idata.dinode)
    (hopen : 0 < vol.logged.log.outstanding) :
    Ensures (idata.writeLoop fuel offset data) vol
      (Stored frame idata offset data vol) Exhausted := by
  induction fuel generalizing vol idata offset data with
  | zero =>
    obtain rfl : data = [] := List.length_eq_zero_iff.mp (by omega)
    exact Stored.nil hframe hholds hapart offset
  | succ fuel ih =>
    rw [InodeData.writeLoop]
    by_cases hlen : data.length = 0
    · rw [if_pos hlen, List.length_eq_zero_iff.mp hlen]
      exact Stored.nil hframe hholds hapart offset
    · rw [if_neg hlen]
      have hblock : 0 < bsize - offset % bsize := by
        have := Nat.mod_lt offset (show 0 < bsize by decide)
        omega
      have hdirect : offset / bsize < ndirect := div_lt_of_lt (by omega)
      refine Ensures.bind ((ensures_map hdirect hframe hholds hopen).imp
        (fun _ _ h => h) fun _ _ hstop => hstop.2.1.of_halts hstop.2.2) ?_
      rintro ⟨blockno, first⟩ middle hmapped
      have hopen' : 0 < middle.logged.log.outstanding := by
        rw [hmapped.changes.outstanding_eq]
        exact hopen
      simp only [ensures_bind, ensures_bread]
      refine (ensures_logWrite _ _ hopen').imp ?_ fun _ _ hstop =>
        Exhausted.of_halts (.inr hstop.1) hstop.2
      intro _ stored hwrote
      have hlength : (data.take (min data.length (bsize - offset % bsize))).length =
            min data.length (bsize - offset % bsize) := by
        rw [List.length_take]
        omega
      have hpiece := stored_of_wrote hframe hapart hdirect (by rw [hlength]; omega) hmapped hwrote
      have hopen'' : 0 < stored.logged.log.outstanding := by
        rw [hwrote.changes.outstanding_eq]
        exact hopen'
      have hrest := ih (offset + min data.length (bsize - offset % bsize))
        (data.drop (min data.length (bsize - offset % bsize)))
        (by rw [List.length_drop]; omega) (by rw [List.length_drop]; omega)
        hpiece.framed hpiece.holds hpiece.apart hopen''
      refine hrest.imp_returned ?_
      intro second final hstored
      have happend := hpiece.append (by rw [hlength]; exact hstored) (by rw [hlength]; omega)
      rwa [List.take_append_drop] at happend

/-- `write` stores its data, then the inode. -/
structure Written (frame : Set ℕ) (idata : InodeData) (offset : ℕ)
    (data : List UInt8) (vol : Volume) (result : InodeData) (middle : Volume)
    (next : Volume) : Prop where
  stored : Stored frame idata offset data vol result middle
  wrote : Wrote (.ofNat (inodeBlock middle.sb idata.inum.toNat))
    (DiskInode.store (middle.block (inodeBlock middle.sb idata.inum.toNat))
      (dinodeSize * (idata.inum.toNat % ipb))
      (result.grow (offset + data.length)).dinode) middle next

@[simp]
theorem inum_grow (idata : InodeData) (offset : ℕ) : (idata.grow offset).inum = idata.inum := by
  unfold InodeData.grow
  split <;> rfl

@[simp]
theorem addr_grow (idata : InodeData) (offset index : ℕ) :
    (idata.grow offset).dinode.addr index = idata.dinode.addr index := by
  unfold InodeData.grow
  split <;> rfl

theorem size_grow (idata : InodeData) {offset : ℕ} (hoffset : offset < 4294967296) :
    (idata.grow offset).dinode.size.toNat = max idata.dinode.size.toNat offset := by
  have hnumber := toNat_ofNat_of_lt hoffset
  unfold InodeData.grow
  split
  · next hlt =>
      have hlt' : idata.dinode.size.toNat < offset := by
        rw [UInt32.lt_iff_toNat_lt, hnumber] at hlt
        exact hlt
      change (UInt32.ofNat offset).toNat = _
      rw [hnumber]
      omega
  · next hle =>
      rw [UInt32.lt_iff_toNat_lt, hnumber] at hle
      omega

theorem ensures_write {offset : UInt32} {data : List UInt8}
    (hend : offset.toNat + data.length ≤ ndirect * bsize)
    (hframe : Frame frame vol) (hholds : Holds vol idata.dinode) (hapart : Apart frame idata.dinode)
    (hinum : idata.inum.toNat < vol.sb.ninodes) (hopen : 0 < vol.logged.log.outstanding) :
    Ensures (idata.write offset data) vol (fun result next => ∃ stored middle,
        Written frame idata offset.toNat data vol stored middle next ∧ result = (.ok data.length,
          stored.grow (offset.toNat + data.length))) Exhausted := by
  rw [InodeData.write]
  refine (ensures_writeLoop _ _ _ (Nat.le_refl _) hend hframe hholds hapart hopen).bind ?_
  intro stored middle hstored
  have hsame : stored.inum = idata.inum := by
    obtain ⟨_, rfl⟩ := hstored.same
    rfl
  have hinum' : (stored.grow (offset.toNat + data.length)).inum.toNat < middle.sb.ninodes := by
    rw [inum_grow, hsame, hstored.changes.sb_eq]
    exact hinum
  have hopen' : 0 < middle.logged.log.outstanding := by
    rw [hstored.changes.outstanding_eq]
    exact hopen
  refine Ensures.bind ((ensures_update hinum' hopen').imp (fun _ _ h => h)
    fun _ _ hstop => Exhausted.of_halts (.inr hstop.1) hstop.2) ?_
  intro _ next hwrote
  rw [inum_grow, hsame] at hwrote
  exact ⟨stored, middle, ⟨hstored, hwrote⟩, rfl⟩

end RxOs.FileBytes
