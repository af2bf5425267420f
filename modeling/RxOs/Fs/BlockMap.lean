import RxOs.Fs.Inode

/-!
# The block map of an inode

What `InodeData::map` promises its callers: every index of the file has one
block of its own, found again by every later call.  The promise is kept in the
direct range.  In the indirect range a second call never finds the block of the
first one, because the indirect block is replaced whenever there is one.
-/

namespace RxOs.BlockMap

open Function ByteView Exec Params LogState Blocks BitMap Dinode Inode

/-- Calls `map(n)` for the indices of a list, one after the other. -/
def mapAll (idata : InodeData) : List ℕ → FsM (List UInt32 × InodeData)
  | [] => return ([], idata)
  | index :: indices => do
    let (number, idata) ← idata.map index
    let (numbers, idata) ← mapAll idata indices
    return (number :: numbers, idata)

def ownBlocks (vol : Volume) (dinode : DiskInode) : Set ℕ :=
  { blockno | ∃ slot < ndirect + 1 + nindirect,
      pointer vol.block dinode slot ≠ 0 ∧ (pointer vol.block dinode slot).toNat = blockno }

def freeBlocks (vol : Volume) : Finset ℕ :=
  {blockno ∈ Finset.range vol.sb.size | vol.marked blockno = false}

/-- The result of a sequence of calls: every call returned what is recorded for
its index in the end, the recorded numbers are allocated and pairwise distinct,
no earlier one has changed, and only blocks of the inode and of the bitmap were
touched. -/
structure MapsRight (vol : Volume) (idata : InodeData) (indices : List ℕ)
    (result : List UInt32 × InodeData) (next : Volume) : Prop where
  numbers_eq : result.1 = indices.map (recorded next.block result.2.dinode)
  nonzero : ∀ index ∈ indices, recorded next.block result.2.dinode index ≠ 0
  allocated : ∀ index ∈ indices, InUse next (recorded next.block result.2.dinode index).toNat
  injective : ∀ left ∈ indices, ∀ right ∈ indices,
    recorded next.block result.2.dinode left = recorded next.block result.2.dinode right →
      left = right
  kept : ∀ index < ndirect + nindirect, recorded vol.block idata.dinode index ≠ 0 →
    recorded next.block result.2.dinode index = recorded vol.block idata.dinode index
  changes : Changes (bitmapBlocks vol.sb ∪ ownBlocks next result.2.dinode) vol next

/-- The promise of `map` for the indices of a list, repeated calls
included. -/
def Contract (vol : Volume) (idata : InodeData) (indices : List ℕ) : Prop :=
  ∀ later : List ℕ, (∀ index ∈ later, index ∈ indices) →
    Ensures (mapAll idata (indices ++ later)) vol
      (MapsRight vol idata (indices ++ later)) fun _ _ => False

/-- A well-formed inode on a volume with free blocks, inside an operation that
has room in the log. -/
structure Start (vol : Volume) (idata : InodeData) : Prop where
  layout : Layout vol.sb
  boot : InUse vol 0
  bitmap : ∀ place ∈ bitmapBlocks vol.sb, InUse vol place
  inUse : ∀ slot < ndirect + 1 + nindirect, pointer vol.block idata.dinode slot ≠ 0 →
      InUse vol (pointer vol.block idata.dinode slot).toNat
  data : ∀ slot < ndirect + 1 + nindirect, pointer vol.block idata.dinode slot ≠ 0 →
      (pointer vol.block idata.dinode slot).toNat ∉ bitmapBlocks vol.sb
  distinct : ∀ left < ndirect + 1 + nindirect,
    ∀ right < ndirect + 1 + nindirect, pointer vol.block idata.dinode left ≠ 0 →
      pointer vol.block idata.dinode left = pointer vol.block idata.dinode right →
        left = right
  opened : 0 < vol.logged.log.outstanding
  free : ndirect ≤ (freeBlocks vol).card
  room : vol.logged.log.lh.len + ndirect + 1 < min logSize vol.logged.log.size

variable {vol next : Volume} {idata : InodeData} {indices : List ℕ}

theorem Start.holds (hstart : Start vol idata) : Holds vol idata.dinode := by
  have hpointer : ∀ slot < ndirect + 1,
      pointer vol.block idata.dinode slot = idata.dinode.addr slot := by
    intro slot hslot
    exact pointer_of_le _ _ (by omega)
  refine ⟨?_, ?_⟩
  · intro index hindex hnonzero
    rw [← hpointer index hindex] at hnonzero ⊢
    exact hstart.inUse index (by omega) hnonzero
  · intro left hleft right hright hnonzero heq
    rw [← hpointer left hleft, ← hpointer right hright] at heq
    rw [← hpointer left hleft] at hnonzero
    exact hstart.distinct left (by omega) right (by omega) hnonzero heq

/-! ## The direct range -/

def missing (dinode : DiskInode) : Finset ℕ :=
  {index ∈ Finset.range ndirect | dinode.addr index = 0}

/-- There are free blocks and log slots for all missing addresses. -/
structure Budget (vol : Volume) (dinode : DiskInode) : Prop where
  free : (missing dinode).card ≤ (freeBlocks vol).card
  room : vol.logged.log.lh.len + (missing dinode).card + 1 < min logSize vol.logged.log.size

theorem Start.budget (hstart : Start vol idata) : Budget vol idata.dinode := by
  have hmissing : (missing idata.dinode).card ≤ ndirect := by
    have hle := Finset.card_filter_le (Finset.range ndirect)
      fun index => idata.dinode.addr index = 0
    rwa [Finset.card_range] at hle
  have hfree := hstart.free
  have hroom := hstart.room
  exact ⟨by omega, by omega⟩

/-- With a budget a call for a missing address does not run out. -/
theorem Budget.not_exhausted {dinode : DiskInode} {index : ℕ} {cause : Stop}
    (hbudget : Budget vol dinode) (hindex : index < ndirect)
    (hzero : dinode.addr index = 0) : ¬Exhausted cause vol := by
  have hpos : 0 < (missing dinode).card := by
    apply Finset.card_pos.mpr
    exact ⟨index, by simp [missing, hindex, hzero]⟩
  have hfree := hbudget.free
  have hroom := hbudget.room
  rintro (⟨-, hfull⟩ | ⟨-, hfull⟩)
  · obtain ⟨blockno, hblockno⟩ := Finset.card_pos.mp (hpos.trans_le hfree)
    simp only [freeBlocks, Finset.mem_filter, Finset.mem_range] at hblockno
    rw [hfull blockno hblockno.1] at hblockno
    simp at hblockno
  · omega

/-- An allocated address uses up one of each. -/
theorem Budget.allocated {dinode : DiskInode} {index : ℕ} {blockno : UInt32}
    (hbudget : Budget vol dinode) (hindex : index < ndirect)
    (hzero : dinode.addr index = 0) (hnonzero : blockno ≠ 0)
    (hlayout : Layout vol.sb) (hallocated : Allocated blockno vol next) :
    Budget next (dinode.setAddr index blockno) := by
  have hsb := hallocated.wrote.sb_eq
  have hmarked : ∀ other < vol.sb.size, next.marked other = true ↔
      other = blockno.toNat ∨ vol.marked other = true := by
    intro other hother
    have hplace : vol.sb.locateBmp other ∈ bitmapBlocks vol.sb := ⟨other, hother, rfl⟩
    have hiff := hallocated.inUse_iff hlayout other
    simpa only [InUse, hsb, hplace, true_and] using hiff
  have hfree : freeBlocks next = (freeBlocks vol).erase blockno.toNat := by
    ext other
    simp only [freeBlocks, Finset.mem_filter, Finset.mem_range,
      Finset.mem_erase, hsb, ← Bool.not_eq_true]
    constructor
    · rintro ⟨hother, hclear⟩
      rw [hmarked other hother, not_or] at hclear
      exact ⟨hclear.1, hother, hclear.2⟩
    · rintro ⟨hne, hother, hclear⟩
      exact ⟨hother, by rw [hmarked other hother, not_or]; exact ⟨hne, hclear⟩⟩
  have hmissing : missing (dinode.setAddr index blockno) = (missing dinode).erase index := by
    ext other
    simp only [missing, Finset.mem_filter, Finset.mem_range, Finset.mem_erase,
      DiskInode.addr_setAddr _ _ (Nat.lt_succ_of_lt hindex)]
    by_cases hother : other = index
    · simp [hother, hnonzero]
    · simp [hother]
  have hmem : index ∈ missing dinode := by simp [missing, hindex, hzero]
  have hblock : blockno.toNat ∈ freeBlocks vol := by
    simp [freeBlocks, hallocated.lt_size, hallocated.free]
  have hlog : next.logged.log.size = vol.logged.log.size ∧
      next.logged.log.lh.len ≤ vol.logged.log.lh.len + 1 := by
    obtain ⟨-, ⟨-, heq⟩ | ⟨-, -, -, heq⟩⟩ := Log.write_eq_ok hallocated.wrote.log_eq
    · rw [heq]
      exact ⟨rfl, Nat.le_succ _⟩
    · rw [heq]
      exact ⟨rfl, Nat.le_refl _⟩
  have hcard := Finset.card_pos.mpr ⟨index, hmem⟩
  refine ⟨?_, ?_⟩
  · rw [hfree, hmissing, Finset.card_erase_of_mem hmem, Finset.card_erase_of_mem hblock]
    exact Nat.sub_le_sub_right hbudget.free 1
  · rw [hmissing, Finset.card_erase_of_mem hmem, hlog.1]
    have hroom := hbudget.room
    omega

/-- What a sequence of calls in the direct range does. -/
structure DirectRun (vol : Volume) (idata : InodeData) (indices : List ℕ)
    (result : List UInt32 × InodeData) (next : Volume) : Prop where
  changes : Changes (bitmapBlocks vol.sb) vol next
  holds : Holds next result.2.dinode
  kept : ∀ index, idata.dinode.addr index ≠ 0 → result.2.dinode.addr index = idata.dinode.addr index
  indirect : result.2.dinode.addr ndirect = idata.dinode.addr ndirect
  numbers_eq : result.1 = indices.map result.2.dinode.addr
  nonzero : ∀ index ∈ indices, result.2.dinode.addr index ≠ 0

theorem ensures_mapAll {frame : Set ℕ} (hdirect : ∀ index ∈ indices, index < ndirect)
    (hframe : Frame frame vol) (hholds : Holds vol idata.dinode)
    (hopen : 0 < vol.logged.log.outstanding) (hbudget : Budget vol idata.dinode) :
    Ensures (mapAll idata indices) vol (DirectRun vol idata indices) fun _ _ => False := by
  induction indices generalizing vol idata with
  | nil => exact ⟨Changes.refl _ _, hholds, fun _ _ => rfl, rfl, rfl, by simp⟩
  | cons index indices ih =>
    have hindex := hdirect index List.mem_cons_self
    refine Ensures.bind ((ensures_map hindex hframe hholds hopen).imp
      (fun _ _ h => h) fun _ _ hstop => hbudget.not_exhausted hindex hstop.1 hstop.2.1) ?_
    intro result middle hmapped
    have hbudget' : Budget middle result.2.dinode := by
      rw [hmapped.idata_eq]
      rcases hmapped.cases with ⟨-, hnumber, rfl⟩ | ⟨hzero, hallocated⟩
      · rw [hnumber, setAddr_addr]
        exact hbudget
      · exact hbudget.allocated hindex hzero hmapped.nonzero hframe.layout hallocated
    have hopen' : 0 < middle.logged.log.outstanding := by
      rw [hmapped.changes.outstanding_eq]
      exact hopen
    refine (ih (fun other hother => hdirect other
      (List.mem_cons_of_mem _ hother)) hmapped.framed hmapped.holds hopen' hbudget').bind ?_
    intro rest final hrest
    rw [ensures_pure]
    have haddr : ∀ other, result.2.dinode.addr other =
        if other = index then result.1 else idata.dinode.addr other := by
      intro other
      rw [hmapped.idata_eq]
      exact DiskInode.addr_setAddr _ _ (Nat.lt_succ_of_lt hindex) other
    have hnumber : rest.2.dinode.addr index = result.1 := by
      have hsame : result.2.dinode.addr index = result.1 := by rw [haddr, if_pos rfl]
      rw [hrest.kept index (by rw [hsame]; exact hmapped.nonzero), hsame]
    have hchanges := hrest.changes
    rw [hmapped.changes.sb_eq] at hchanges
    refine ⟨hmapped.changes.trans hchanges, hrest.holds, ?_, ?_, ?_, ?_⟩
    · intro other hnonzero
      have hsame : result.2.dinode.addr other = idata.dinode.addr other := by
        rw [haddr]
        split
        · next heq =>
            subst heq
            rcases hmapped.cases with ⟨-, hkept, -⟩ | ⟨hzero, -⟩
            · exact hkept
            · exact absurd hzero hnonzero
        · rfl
      rw [hrest.kept other (by rw [hsame]; exact hnonzero), hsame]
    · rw [hrest.indirect, haddr, if_neg (by omega)]
    · simp only [List.map_cons, hnumber, hrest.numbers_eq]
    · intro other hother
      rcases List.mem_cons.mp hother with rfl | htail
      · rw [hnumber]
        exact hmapped.nonzero
      · exact hrest.nonzero other htail

/-- Sequences in the direct range keep the promise. -/
theorem DirectRun.mapsRight {result : List UInt32 × InodeData} (hstart : Start vol idata)
    (hdirect : ∀ index ∈ indices, index < ndirect)
    (hrun : DirectRun vol idata indices result next) : MapsRight vol idata indices result next := by
  have hrecorded : ∀ index ∈ indices,
      recorded next.block result.2.dinode index = result.2.dinode.addr index :=
    fun index hindex => recorded_of_lt (hdirect index hindex)
  refine ⟨?_, ?_, ?_, ?_, ?_, hrun.changes.mono Set.subset_union_left⟩
  · rw [hrun.numbers_eq]
    exact List.map_congr_left fun index hindex => (hrecorded index hindex).symm
  · intro index hindex
    rw [hrecorded index hindex]
    exact hrun.nonzero index hindex
  · intro index hindex
    rw [hrecorded index hindex]
    exact hrun.holds.inUse index (Nat.lt_succ_of_lt (hdirect index hindex))
      (hrun.nonzero index hindex)
  · intro left hleft right hright heq
    rw [hrecorded left hleft, hrecorded right hright] at heq
    exact hrun.holds.distinct left (Nat.lt_succ_of_lt (hdirect left hleft))
      right (Nat.lt_succ_of_lt (hdirect right hright)) (hrun.nonzero left hleft) heq
  · intro index hindex hnonzero
    by_cases hlt : index < ndirect
    · rw [recorded_of_lt hlt] at hnonzero ⊢
      rw [recorded_of_lt hlt, hrun.kept index hnonzero]
    · rw [recorded, if_neg hlt] at hnonzero ⊢
      rw [recorded, if_neg hlt, hrun.indirect]
      split
      · rfl
      · next hindirect =>
          have hdata : (idata.dinode.addr ndirect).toNat ∉ bitmapBlocks vol.sb := by
            have hslot := hstart.data ndirect (by omega)
            rw [pointer, if_pos (Nat.le_refl _)] at hslot
            exact hslot hindirect
          rw [hrun.changes.block_eq _ hdata]

theorem contract_of_direct (hstart : Start vol idata)
    (hdirect : ∀ index ∈ indices, index < ndirect) : Contract vol idata indices := by
  intro later hlater
  have hall : ∀ index ∈ indices ++ later, index < ndirect := by
    intro index hindex
    rcases List.mem_append.mp hindex with hmem | hmem
    · exact hdirect index hmem
    · exact hdirect index (hlater index hmem)
  have hframe : Frame ({0} ∪ bitmapBlocks vol.sb) vol := by
    refine ⟨hstart.layout, ?_, by simp, Set.subset_union_right⟩
    rintro blockno (rfl | hmem)
    · exact hstart.boot
    · exact hstart.bitmap blockno hmem
  refine (ensures_mapAll hall hframe hstart.holds hstart.opened hstart.budget).imp_returned ?_
  intro result next hrun
  exact hrun.mapsRight hstart hall

/-! ## The indirect range -/

theorem ensures_mapAll_append {later : List ℕ} {result : List UInt32 × InodeData}
    {returned : List UInt32 × InodeData → Volume → Prop} {stopped : Stop → Volume → Prop}
    (hfirst : mapAll idata indices vol = .ok result next)
    (hensures : Ensures (mapAll idata (indices ++ later)) vol returned stopped) :
    Ensures (mapAll result.2 later) next
      (fun rest => returned (result.1 ++ rest.1, rest.2)) stopped := by
  induction indices generalizing vol idata result returned with
  | nil =>
    obtain ⟨rfl, rfl⟩ : ([], idata) = result ∧ vol = next := by
      simpa [mapAll, pure, EStateM.pure] using hfirst
    exact hensures
  | cons index indices ih =>
    obtain ⟨first, middle, hmap, htail⟩ := bind_eq_ok.mp hfirst
    obtain ⟨rest, final, hrest, hpure⟩ := bind_eq_ok.mp htail
    obtain ⟨rfl, rfl⟩ : (first.1 :: rest.1, rest.2) = result ∧ final = next := by
      simpa [pure, EStateM.pure] using hpure
    rw [List.cons_append, mapAll, ensures_bind] at hensures
    have hmiddle := hensures.eq_ok hmap
    rw [ensures_bind] at hmiddle
    have hlater := ih hrest hmiddle
    exact hlater

/-- With an indirect block in place `map` replaces it, so it does not return a
block that is in use. -/
theorem ensures_map_indirect {index : ℕ} (hlayout : Layout vol.sb)
    (hopen : 0 < vol.logged.log.outstanding) (hindex : ndirect ≤ index)
    (hlt : index < nindirect + ndirect) (hindirect : idata.dinode.addr ndirect ≠ 0) :
    Ensures (idata.map index) vol (fun result _ => result.1 = 0 ∨ ¬InUse vol result.1.toNat)
      fun _ _ => True := by
  rw [InodeData.map, if_neg (by omega), if_pos hlt, if_pos hindirect]
  simp only [ensures_bind, ensures_pure]
  refine (ensures_alloc hlayout hopen).imp ?_ fun _ _ _ => trivial
  intro addrBufNum middle hfirst
  simp only [ensures_bread]
  have hlayout' : Layout middle.sb := by
    rw [hfirst.wrote.sb_eq]
    exact hlayout
  have hopen' : 0 < middle.logged.log.outstanding := by
    rw [hfirst.wrote.changes.outstanding_eq]
    exact hopen
  split
  · simp only [ensures_bind, ensures_pure]
    refine (ensures_alloc hlayout' hopen').imp ?_ fun _ _ _ => trivial
    intro addr last hsecond
    have hopen'' : 0 < last.logged.log.outstanding := by
      rw [hsecond.wrote.changes.outstanding_eq]
      exact hopen'
    refine (ensures_logWrite _ _ hopen'').imp ?_ fun _ _ _ => trivial
    intro _ _ _
    right
    intro hinUse
    apply hsecond.not_inUse
    rw [hfirst.inUse_iff hlayout]
    exact .inr hinUse
  · exact .inl rfl

/-- An index of the indirect range breaks the promise: its second call does not
return the block of the first one. -/
theorem not_contract_of_indirect {index : ℕ} (hlayout : Layout vol.sb)
    (hopen : 0 < vol.logged.log.outstanding) (hmem : index ∈ indices)
    (hindex : ndirect ≤ index) (hlt : index < ndirect + nindirect) :
    ¬Contract vol idata indices := by
  intro hcontract
  have honce := hcontract [] (by simp)
  rw [List.append_nil] at honce
  obtain ⟨result, middle, hrun, hright⟩ := honce.exists_ok
  have hindirect : result.2.dinode.addr ndirect ≠ 0 := by
    intro hzero
    apply hright.nonzero index hmem
    rw [recorded, if_neg (by omega), if_pos hzero]
  have hagain := ensures_mapAll_append hrun (hcontract [index] (by simpa using hmem))
  obtain ⟨rest, final, hrest, hfinal⟩ := hagain.exists_ok
  obtain ⟨number, last, hmap, hpure⟩ := bind_eq_ok.mp hrest
  obtain ⟨rfl, rfl⟩ : ([number.1], number.2) = rest ∧ last = final := by
    simpa [mapAll, bind, EStateM.bind, pure, EStateM.pure] using hpure
  have hnumbers := hfinal.numbers_eq
  rw [hright.numbers_eq, List.map_append] at hnumbers
  obtain ⟨hold, hnew⟩ := List.append_inj' hnumbers rfl
  have hsame : recorded middle.block result.2.dinode index = number.1 := by
    have hlast : number.1 = recorded last.block number.2.dinode index := by simpa using hnew
    rw [hlast]
    exact (List.map_inj_left.mp hold) index hmem
  have hlayout' : Layout middle.sb := by
    rw [hright.changes.sb_eq]
    exact hlayout
  have hopen' : 0 < middle.logged.log.outstanding := by
    rw [hright.changes.outstanding_eq]
    exact hopen
  rcases (ensures_map_indirect hlayout' hopen' hindex (by omega)
    hindirect).eq_ok hmap with hzero | hfresh
  · exact hright.nonzero index hmem (hsame.trans hzero)
  · apply hfresh
    rw [← hsame]
    exact hright.allocated index hmem

/-- `map` keeps its promise for a list of indices exactly when all of them are
direct. -/
theorem contract_iff_direct (hstart : Start vol idata)
    (hindices : ∀ index ∈ indices, index < ndirect + nindirect) :
    Contract vol idata indices ↔ ∀ index ∈ indices, index < ndirect := by
  constructor
  · intro hcontract index hmem
    by_contra hindirect
    exact not_contract_of_indirect hstart.layout hstart.opened hmem
      (Nat.not_lt.mp hindirect) (hindices index hmem) hcontract
  · exact contract_of_direct hstart

def sampleInode : InodeData where
  valid := true
  inum := 3
  dinode := { DiskInode.new with itype := .file, nlink := 1 }

theorem start_sample : Start sampleVolume sampleInode := by
  have haddr : ∀ index, sampleInode.dinode.addr index = 0 := by
    intro index
    simp [sampleInode, DiskInode.new, DiskInode.addr]
  have hpointer : ∀ slot, pointer sampleVolume.block sampleInode.dinode slot = 0 := by
    intro slot
    simp [pointer, recorded, haddr]
  refine ⟨layout_sampleSb, inUse_sampleVolume (by decide), ?_, ?_, ?_, ?_, by decide, ?_, by decide⟩
  · intro place hplace
    rw [mem_bitmapBlocks_sampleSb.mp hplace]
    exact inUse_sampleVolume (by decide)
  · intro slot _ hnonzero
    exact absurd (hpointer slot) hnonzero
  · intro slot _ hnonzero
    exact absurd (hpointer slot) hnonzero
  · intro left _ right _ hnonzero
    exact absurd (hpointer left) hnonzero
  · decide +kernel

theorem contract_sample : Contract sampleVolume sampleInode [3, 5] :=
  (contract_iff_direct start_sample (by decide)).mpr (by decide)

/-- On an empty file already the first indirect index breaks the promise. -/
theorem not_contract_sample :
    ¬∀ (vol : Volume) (idata : InodeData) (indices : List ℕ),
      Start vol idata → (∀ index ∈ indices, index < ndirect + nindirect) →
        Contract vol idata indices := by
  intro hall
  exact not_contract_of_indirect layout_sampleSb start_sample.opened
    List.mem_cons_self (Nat.le_refl ndirect) (by decide)
    (hall sampleVolume sampleInode [ndirect] start_sample (by decide))

end RxOs.BlockMap
