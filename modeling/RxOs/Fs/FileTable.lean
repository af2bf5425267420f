import RxOs.Fs.FileRefinement

/-!
# The files that the inode table describes

The code above `InodeData` works on copies of inodes that agree with the inode
table.  Seen from the volume alone, a write overwrites the bytes of one file, and
storing an inode whose blocks are the old ones, or none, changes one record of
the table; the volume stays sound in both cases.
-/

namespace RxOs.FileTable

open Function ByteView Exec Params Blocks BitMap Dinode Inode FileBytes
open FileRefinement

def loaded (vol : Volume) (inum : ℕ) : InodeData :=
  ⟨true, .ofNat inum, onDisk vol inum⟩

def filesOf (vol : Volume) : Files :=
  ⟨vol, loaded vol⟩

def bytesOf (vol : Volume) (inum : ℕ) : List UInt8 :=
  contents vol (onDisk vol inum)

variable {vol next : Volume} {inum : ℕ}

/-- Copies that agree with the table may be replaced by the table. -/
theorem sound_filesOf {files : Files} (hsound : Sound files) : Sound (filesOf files.vol) := by
  have hloaded : ∀ inum < files.vol.sb.ninodes,
      ((filesOf files.vol).inodes inum).dinode = (files.inodes inum).dinode := hsound.loaded
  refine hsound.of_pointers rfl (fun _ h => h) hsound.recording ?_ (fun _ _ => rfl) ?_ ?_
  · intro inum hinum
    have hlt := (files.inodes inum).inum.toNat_lt
    rw [hsound.inum_eq inum hinum] at hlt
    exact toNat_ofNat_of_lt hlt
  · intro inum hinum slot _
    rw [hloaded inum hinum]
    rfl
  · intro inum hinum
    rw [hloaded inum hinum]
    exact hsound.mapped inum hinum

/-! ## Writing to a file -/

/-- A write to a file, seen from the volume. -/
structure FileWritten (vol : Volume) (inum offset : ℕ) (data : List UInt8)
    (next : Volume) : Prop where
  sb_eq : next.sb = vol.sb
  outstanding_eq : next.logged.log.outstanding = vol.logged.log.outstanding
  sound : Sound (filesOf next)
  same : ∃ size addrs, onDisk next inum = { onDisk vol inum with size := size, addrs := addrs }
  size_eq : (onDisk next inum).size.toNat = max (onDisk vol inum).size.toNat (offset + data.length)
  bytes_eq : bytesOf next inum = overwrite (bytesOf vol inum) offset data
  onDisk_other : ∀ other < vol.sb.ninodes, other ≠ inum → onDisk next other = onDisk vol other
  bytes_other : ∀ other < vol.sb.ninodes, other ≠ inum → bytesOf next other = bytesOf vol other

theorem grow_same (idata : InodeData) (offset : ℕ) :
    ∃ size, (idata.grow offset).dinode = { idata.dinode with size := size } ∧
      (idata.grow offset).valid = idata.valid := by
  unfold InodeData.grow
  split
  · exact ⟨_, rfl, rfl⟩
  · exact ⟨_, rfl, rfl⟩

/-- `write` through a copy that agrees with the table returns a copy that
does, unless bitmap or log run out. -/
theorem ensures_write_loaded {offset : UInt32} {data : List UInt8}
    (hsound : Sound (filesOf vol)) (hinum : inum < vol.sb.ninodes)
    (hoffset : offset.toNat ≤ (onDisk vol inum).size.toNat)
    (hend : offset.toNat + data.length ≤ ndirect * bsize) (hopen : 0 < vol.logged.log.outstanding) :
    Ensures ((loaded vol inum).write offset data) vol
      (fun result next => result = (.ok data.length, loaded next inum) ∧
        FileWritten vol inum offset.toNat data next) Exhausted := by
  have hnumber : (loaded vol inum).inum.toNat = inum := hsound.inum_eq inum hinum
  refine (ensures_write hend (hsound.frame inum) (hsound.holds hinum)
    (hsound.apart hinum) (hnumber.symm ▸ hinum) hopen).imp_returned ?_
  rintro _ next ⟨result, middle, hwritten, rfl⟩
  have hdone : WriteDone (filesOf vol) inum offset.toNat data result middle
      next := ⟨hsound, hinum, hwritten, hoffset, hend⟩
  have hsound' := hdone.sound_after
  have hsb : next.sb = vol.sb := hdone.sb_eq
  have hown : onDisk next inum = (result.grow (offset.toNat + data.length)).dinode := by
    have hloaded := hsound'.loaded inum (show inum < next.sb.ninodes by rwa [hsb])
    rwa [afterWrite_self] at hloaded
  have hother : ∀ other < vol.sb.ninodes, other ≠ inum → onDisk next other = onDisk vol other := by
    intro other hlt hne
    have hloaded := hsound'.loaded other (show other < next.sb.ninodes by rwa [hsb])
    rwa [afterWrite_of_ne _ _ _ hne] at hloaded
  obtain ⟨addrs, hresult⟩ := hdone.written.stored.same
  obtain ⟨size, hgrow, hvalid⟩ := grow_same result (offset.toNat + data.length)
  refine ⟨?_, hsb, hdone.changes.outstanding_eq, sound_filesOf hsound', ?_, ?_, ?_, hother, ?_⟩
  · have hcopy : result.grow (offset.toNat + data.length) = loaded next inum := by
      have hinum' := inum_grow result (offset.toNat + data.length)
      rw [loaded, hown]
      generalize result.grow (offset.toNat + data.length) = copy at *
      obtain ⟨valid, number, dinode⟩ := copy
      rw [hresult] at hvalid hinum'
      change valid = true at hvalid
      change number = .ofNat inum at hinum'
      rw [hvalid, hinum']
    rw [hcopy]
  · refine ⟨size, addrs, ?_⟩
    rw [hown, hgrow, hresult]
    rfl
  · rw [hown]
    exact hdone.size_final
  · rw [bytesOf, hown]
    exact hdone.contents_own
  · intro other hlt hne
    rw [bytesOf, bytesOf, hother other hlt hne]
    exact hdone.contents_other hlt hne

/-! ## Reading from a file -/

/-- `read` inside a file returns its bytes and changes nothing. -/
theorem read_loaded {offset count : UInt32} (hsound : Sound (filesOf vol))
    (hinum : inum < vol.sb.ninodes)
    (hend : offset.toNat + count.toNat ≤ (onDisk vol inum).size.toNat)
    (hrange : offset.toNat + count.toNat ≤ ndirect * bsize) :
    (loaded vol inum).read offset count vol =
      .ok (.ok (((bytesOf vol inum).drop offset.toNat).take count.toNat), loaded vol inum) vol := by
  have hread : (loaded vol inum).read offset count vol = _ :=
    read_eq vol hend fun position hle hlt => by
      have hindex := div_lt_of_lt (show position < ndirect * bsize by omega)
      exact ⟨hindex, hsound.mapped inum hinum _ hindex
        (lt_of_le_of_lt (Nat.div_mul_le_self position bsize) (by
          change position < (onDisk vol inum).size.toNat
          omega))⟩
  rw [hread, bytesOf, contents, take_drop_map_range _ (by omega)]
  rfl

end RxOs.FileTable
