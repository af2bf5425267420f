import RxOs.Fs.Kernel

/-!
# How the file system uses the log

Apart from `begin_op` and `end_op`, file-system code leaves the number of open
operations alone, and it stops with the panic `log write is out of recording`
only when no operation is open.  Code that does not call `Log::write` never
stops with it.
-/

namespace RxOs.LogUse

open ByteView Exec Params LogState LogCommit Blocks BitMap Dinode Inode Kernel

def openOps (vol : Volume) : ℕ :=
  vol.logged.log.outstanding

/-- The number of calls of `Log::write` in a history. -/
def logWrites (events : List Event) : ℕ :=
  events.countP fun event => event matches .logWrite _

/-- The blocks passed to `Log::write` in a history. -/
def loggedBlocks (events : List Event) : List UInt32 :=
  events.filterMap fun event =>
    match event with
    | .logWrite blockno => some blockno
    | _ => none

/-- Code that may call `Log::write`. -/
def logging : Guarantee Volume Stop where
  rel := fun vol next => openOps next = openOps vol
  stops := fun vol cause => 0 < openOps vol → cause ≠ .panic .logOutOfRecording
  refl := fun _ => rfl
  trans := fun hfirst hsecond => hsecond.trans hfirst
  stable := fun hfirst hstops hopen => hstops (hfirst ▸ hopen)

/-- Code that does not call `Log::write`. -/
def silent : Guarantee Volume Stop where
  rel := fun vol next => openOps next = openOps vol ∧ logWrites next.events = logWrites vol.events
  stops := fun _ cause => cause ≠ .panic .logOutOfRecording
  refl := fun _ => ⟨rfl, rfl⟩
  trans := fun hfirst hsecond => ⟨hsecond.1.trans hfirst.1, hsecond.2.trans hfirst.2⟩
  stable := fun _ hstops => hstops

theorem logging_of_silent {Value : Type} {program : FsM Value}
    (hsilent : Guarantees silent program) : Guarantees logging program := by
  intro vol
  refine (hsilent vol).imp (fun _ _ hrel => hrel.1) ?_
  rintro cause next ⟨hrel, hstops⟩
  exact ⟨hrel.1, fun _ => hstops⟩

/-! ## Blocks and bitmap -/

section Blocks

variable {guarantee : Guarantee Volume Stop}

theorem guarantees_bread (blockno : ℕ) : Guarantees guarantee (bread blockno) :=
  Guarantees.bind guarantees_get fun _ => guarantees_pure _

theorem guarantees_findInode (inum : UInt32)
    (hstops : ∀ vol, guarantee.stops vol (.panic .inumTooLarge)) :
    Guarantees guarantee (findInode inum) := by
  refine Guarantees.bind guarantees_get fun vol => ?_
  refine Guarantees.bind ?_ fun blockno =>
    Guarantees.bind (guarantees_bread _) fun _ => guarantees_pure _
  unfold SuperBlock.locateInode
  split
  · exact guarantees_throw hstops
  · exact guarantees_pure _

theorem guarantees_freeAll {free : UInt32 → FsM Unit}
    (hfree : ∀ blockno, Guarantees guarantee (free blockno)) (addrs : List UInt32) :
    Guarantees guarantee (InodeData.freeAll free addrs) :=
  guarantees_forM (fun addr => Guarantees.ite (hfree addr) (guarantees_pure _)) addrs

/-- `Log::write` gives the guarantee, and other panics are allowed. -/
structure Covers (guarantee : Guarantee Volume Stop) : Prop where
  logWrite : ∀ blockno data, Guarantees guarantee (logWrite blockno data)
  stops : ∀ vol cause, cause ≠ .panic .logOutOfRecording → guarantee.stops vol cause

theorem covers_logging : Covers logging := by
  refine ⟨?_, fun _ _ hcause _ => hcause⟩
  intro blockno data vol
  refine (ensures_logWrite_any blockno data).imp ?_ ?_
  · intro _ next hwrote
    exact hwrote.changes.outstanding_eq
  · rintro cause next ⟨hcause, hhalts⟩
    refine ⟨?_, fun hopen => ?_⟩
    · change next.logged.log.outstanding = vol.logged.log.outstanding
      rw [hhalts.logged_eq]
    rcases hcause with ⟨rfl | rfl, -⟩ | ⟨-, hzero⟩
    · exact nofun
    · exact nofun
    · exact absurd hzero hopen.ne'

end Blocks

section Covers

variable {guarantee : Guarantee Volume Stop} (hcovers : Covers guarantee)

include hcovers

theorem Covers.allocFrom (remaining b : ℕ) :
    Guarantees guarantee (BitMap.allocFrom remaining b) := by
  induction remaining generalizing b with
  | zero => exact guarantees_throw fun _ => hcovers.stops _ _ nofun
  | succ remaining ih =>
    refine Guarantees.bind guarantees_get fun vol => ?_
    refine Guarantees.bind (guarantees_bread _) fun buf => ?_
    split
    · exact Guarantees.bind (hcovers.logWrite _ _) fun _ => guarantees_pure _
    · exact ih _

theorem Covers.alloc : Guarantees guarantee BitMap.alloc :=
  Guarantees.bind guarantees_get fun _ => hcovers.allocFrom _ _

theorem Covers.free (blockno : UInt32) : Guarantees guarantee (BitMap.free blockno) := by
  refine Guarantees.bind guarantees_get fun vol => ?_
  refine Guarantees.bind (guarantees_bread _) fun buf => Guarantees.ite ?_ ?_
  · exact Guarantees.bind (guarantees_throw fun _ => hcovers.stops _ _ nofun)
      fun _ => hcovers.logWrite _ _
  · exact hcovers.logWrite _ _

/-! ## Inodes -/

theorem Covers.findInode (inum : UInt32) : Guarantees guarantee (findInode inum) :=
  guarantees_findInode inum fun _ => hcovers.stops _ _ nofun

theorem Covers.allocInodeFrom (remaining inum : ℕ) (itype : InodeType) :
    Guarantees guarantee (DiskInode.allocFrom remaining inum itype) := by
  induction remaining generalizing inum with
  | zero => exact guarantees_throw fun _ => hcovers.stops _ _ nofun
  | succ remaining ih =>
    refine Guarantees.bind (hcovers.findInode _) fun found => ?_
    refine Guarantees.ite ?_ (ih _)
    exact Guarantees.bind (hcovers.logWrite _ _) fun _ => guarantees_pure _

theorem Covers.allocInode (itype : InodeType) : Guarantees guarantee (DiskInode.alloc itype) :=
  Guarantees.bind guarantees_get fun _ => hcovers.allocInodeFrom _ _ itype

variable (idata : InodeData)

theorem Covers.update : Guarantees guarantee idata.update :=
  Guarantees.bind (hcovers.findInode _) fun _ => hcovers.logWrite _ _

/-- The part of `map` that looks into the indirect block. -/
theorem Covers.mapSlot (index : ℕ) : Guarantees guarantee (do
    let buf ← bread (idata.dinode.addr ndirect).toNat
    if u32At buf (4 * (index - ndirect)) = 0 then do
      let addr ← BitMap.alloc
      Blocks.logWrite (idata.dinode.addr ndirect) (writeU32 buf (4 * (index - ndirect)) addr)
      return (addr, idata)
    else return (0, idata)) := by
  refine Guarantees.bind (guarantees_bread _) fun buf => ?_
  refine Guarantees.ite ?_ (guarantees_pure _)
  refine Guarantees.bind hcovers.alloc fun addr => ?_
  exact Guarantees.bind (hcovers.logWrite _ _) fun _ => guarantees_pure _

theorem Covers.map (index : ℕ) : Guarantees guarantee (idata.map index) := by
  refine Guarantees.ite (Guarantees.ite ?_ (guarantees_pure _))
    (Guarantees.ite (Guarantees.ite ?_ (hcovers.mapSlot idata index)) (guarantees_pure _))
  · exact Guarantees.bind hcovers.alloc fun _ => guarantees_pure _
  · exact Guarantees.bind hcovers.alloc fun _ => hcovers.mapSlot _ index

theorem Covers.readLoop (fuel offset len : ℕ) :
    Guarantees guarantee (InodeData.readLoop fuel idata offset len) := by
  induction fuel generalizing idata offset len with
  | zero => exact guarantees_pure _
  | succ fuel ih =>
    refine Guarantees.ite (guarantees_pure _) ?_
    refine Guarantees.bind (hcovers.map _ _) fun mapped => ?_
    refine Guarantees.bind (guarantees_bread _) fun buf => ?_
    exact Guarantees.bind (ih _ _ _) fun _ => guarantees_pure _

theorem Covers.read (offset count : UInt32) : Guarantees guarantee (idata.read offset count) := by
  refine Guarantees.ite (guarantees_pure _) (Guarantees.ite (guarantees_pure _) ?_)
  exact Guarantees.bind (hcovers.readLoop _ _ _ _) fun _ => guarantees_pure _

theorem Covers.writeLoop (fuel offset : ℕ) (data : List UInt8) :
    Guarantees guarantee (InodeData.writeLoop fuel idata offset data) := by
  induction fuel generalizing idata offset data with
  | zero => exact guarantees_pure _
  | succ fuel ih =>
    refine Guarantees.ite (guarantees_pure _) ?_
    refine Guarantees.bind (hcovers.map _ _) fun mapped => ?_
    refine Guarantees.bind (guarantees_bread _) fun buf => ?_
    exact Guarantees.bind (hcovers.logWrite _ _) fun _ => ih _ _ _

theorem Covers.write (offset : UInt32) (data : List UInt8) :
    Guarantees guarantee (idata.write offset data) := by
  refine Guarantees.bind (hcovers.writeLoop _ _ _ _) fun written => ?_
  exact Guarantees.bind (hcovers.update _) fun _ => guarantees_pure _

theorem Covers.freeHolding (held : ℕ) (blockno : UInt32) :
    Guarantees guarantee (InodeData.freeHolding held blockno) := by
  refine Guarantees.bind guarantees_get fun vol => ?_
  exact Guarantees.ite (guarantees_throw fun _ => hcovers.stops _ _ nofun) (hcovers.free _)

theorem Covers.truncate : Guarantees guarantee idata.truncate := by
  have hupdate : Guarantees guarantee (do
      let idata := idata.withDinode { idata.dinode with size := 0, addrs := fun _ => 0 }
      idata.update
      return idata) :=
    Guarantees.bind (hcovers.update _) fun _ => guarantees_pure _
  refine Guarantees.bind (guarantees_freeAll hcovers.free _) fun _ => ?_
  refine Guarantees.ite ?_ hupdate
  refine Guarantees.bind (guarantees_bread _) fun buf => ?_
  refine Guarantees.bind (guarantees_freeAll (hcovers.freeHolding _) _) fun _ => ?_
  exact Guarantees.bind (hcovers.free _) fun _ => hupdate

end Covers

section Kernel

variable {Value : Type} {guarantee : Guarantee Volume Stop}

theorem guarantees_onVolume {program : FsM Value} (hprogram : Guarantees guarantee program) :
    Guarantees (guarantee.comap KernelState.vol) (onVolume program) :=
  Guarantees.zoom (fun _ _ => rfl) hprogram

theorem guarantees_onData (inode : Handle) {method : InodeData → FsM (Value × InodeData)}
    (hmethod : ∀ idata, Guarantees guarantee (method idata)) :
    Guarantees (guarantee.comap KernelState.vol) (onData inode method) := by
  refine Guarantees.bind guarantees_get fun kernel => ?_
  refine Guarantees.bind (guarantees_onVolume (hmethod _)) fun result => ?_
  refine Guarantees.bind ?_ fun _ => guarantees_pure _
  exact guarantees_modify fun kernel => guarantee.refl kernel.vol

end Kernel

theorem ensures_write_ok (idata : InodeData) (offset : UInt32) (data : List UInt8) (vol : Volume) :
    Ensures (idata.write offset data) vol
      (fun outcome _ => outcome.1 = .ok data.length) fun _ _ => True := by
  refine Ensures.bind ensures_any fun written next _ => ?_
  exact Ensures.bind ensures_any fun _ _ _ => rfl

/-- `read` returns at most as many bytes as it is asked for. -/
theorem ensures_readLoop_length (fuel : ℕ) (idata : InodeData) (offset len : ℕ) (vol : Volume) :
    Ensures (InodeData.readLoop fuel idata offset len) vol
      (fun result _ => result.1.length ≤ len) fun _ _ => True := by
  induction fuel generalizing idata offset len vol with
  | zero => exact Nat.zero_le len
  | succ fuel ih =>
    rw [InodeData.readLoop]
    refine ensures_ite.mpr ⟨fun _ => Nat.zero_le len, fun _ => ?_⟩
    refine Ensures.bind ensures_any fun mapped _ _ => ?_
    refine Ensures.bind ensures_any fun buf _ _ => ?_
    refine Ensures.bind (ih _ _ _ _) fun rest _ hrest => ?_
    change (slice _ _ _ ++ rest.1).length ≤ len
    rw [List.length_append, length_slice]
    omega

theorem ensures_read_bound (idata : InodeData) (offset count : UInt32) (vol : Volume) :
    Ensures (idata.read offset count) vol (fun outcome _ => ∀ bytes, outcome.1 = .ok bytes →
        offset.toNat + bytes.length < 4294967296) fun _ _ => True := by
  refine ensures_ite.mpr ⟨fun _ => nofun, fun hadd => ?_⟩
  refine ensures_ite.mpr ⟨fun _ => nofun, fun _ => ?_⟩
  refine Ensures.bind (ensures_readLoop_length _ _ _ _ _) fun result _ hlength => ?_
  rintro bytes ⟨⟩
  omega

/-! ## Reading what is mapped -/

/-- `map` takes a branch that allocates. -/
def Allocates (vol : Volume) (dinode : DiskInode) (index : ℕ) : Prop :=
  if index < ndirect then dinode.addr index = 0
  else index < nindirect + ndirect ∧ (dinode.addr ndirect ≠ 0 ∨
    u32At (vol.block (dinode.addr ndirect).toNat) (4 * (index - ndirect)) = 0)

/-- No position that `read` visits is one for which `map` allocates. -/
def ReadsMapped (vol : Volume) (idata : InodeData) (offset count : UInt32) : Prop :=
  offset.toNat + count.toNat ≤ idata.dinode.size.toNat →
    ∀ position < offset.toNat + count.toNat, offset.toNat ≤ position →
      ¬Allocates vol idata.dinode (position / bsize)

instance (vol : Volume) (dinode : DiskInode) (index : ℕ) : Decidable (Allocates vol dinode index) :=
  inferInstanceAs (Decidable (ite _ _ _))

instance (vol : Volume) (idata : InodeData) (offset count : UInt32) :
    Decidable (ReadsMapped vol idata offset count) :=
  inferInstanceAs (Decidable (_ → ∀ position < _, _ → ¬_))

section ReadsMapped

variable {vol : Volume} {idata : InodeData}

theorem map_of_not_allocates {index : ℕ} (hmapped : ¬Allocates vol idata.dinode index) :
    ∃ number, idata.map index vol = .ok (number, idata) vol := by
  unfold Allocates at hmapped
  unfold InodeData.map
  split
  · next hdirect =>
      rw [if_pos hdirect] at hmapped
      rw [if_neg hmapped]
      exact ⟨_, rfl⟩
  · next hindirect =>
      rw [if_neg hindirect] at hmapped
      split
      · next hindex =>
          obtain ⟨hzero, hslot⟩ := not_or.mp (not_and.mp hmapped hindex)
          simp only [if_neg hzero]
          refine ⟨0, ?_⟩
          change (if u32At (vol.block _) _ = 0 then _ else pure (0, idata) :
            FsM (UInt32 × InodeData)) vol = _
          rw [if_neg hslot]
          rfl
      · exact ⟨_, rfl⟩

theorem readLoop_of_not_allocates (fuel offset len : ℕ)
    (hmapped : ∀ position < offset + len, offset ≤ position →
      ¬Allocates vol idata.dinode (position / bsize)) :
    ∃ bytes, InodeData.readLoop fuel idata offset len vol = .ok (bytes, idata) vol := by
  induction fuel generalizing offset len with
  | zero => exact ⟨_, rfl⟩
  | succ fuel ih =>
    rw [InodeData.readLoop]
    split
    · exact ⟨_, rfl⟩
    · next hlen =>
        obtain ⟨number, hmap⟩ := map_of_not_allocates (hmapped offset (by omega) le_rfl)
        obtain ⟨bytes, hrest⟩ := ih (offset + min len (bsize - offset % bsize))
          (len - min len (bsize - offset % bsize))
          fun position hlt hle => hmapped position (by omega) (by omega)
        exact ⟨_, bind_eq_ok.mpr ⟨_, _, hmap, bind_eq_ok.mpr
          ⟨_, _, rfl, bind_eq_ok.mpr ⟨_, _, hrest, rfl⟩⟩⟩⟩

/-- Such a read leaves the volume and the inode as they are. -/
theorem read_of_readsMapped {offset count : UInt32} (hmapped : ReadsMapped vol idata offset count) :
    ∃ outcome, idata.read offset count vol = .ok (outcome, idata) vol := by
  unfold InodeData.read
  split
  · exact ⟨_, rfl⟩
  · split
    · exact ⟨_, rfl⟩
    · next hsize =>
        obtain ⟨bytes, hloop⟩ := readLoop_of_not_allocates count.toNat
          offset.toNat count.toNat (hmapped (Nat.le_of_not_lt hsize))
        exact ⟨_, bind_eq_ok.mpr ⟨_, _, hloop, rfl⟩⟩

end ReadsMapped

/-! ## The commit -/

/-- A result of the log code: the operations stay as they are, and a panic is
not the one of `Log::write`. -/
def Commits (state : LoggedDisk) : Except Panic LoggedDisk → Prop
  | .ok final => final.log.outstanding = state.log.outstanding
  | .error cause => cause ≠ .logOutOfRecording

theorem Commits.bind {state : LoggedDisk} {outcome : Except Panic LoggedDisk}
    {rest : LoggedDisk → Except Panic LoggedDisk} (houtcome : Commits state outcome)
    (hrest : ∀ middle, Commits middle (rest middle)) : Commits state (outcome >>= rest) := by
  cases outcome with
  | error cause => exact houtcome
  | ok middle =>
    have hmiddle := hrest middle
    change Commits state (rest middle)
    cases hlast : rest middle with
    | error cause =>
      rw [hlast] at hmiddle
      exact hmiddle
    | ok last =>
      rw [hlast] at hmiddle
      exact Eq.trans hmiddle houtcome

theorem commits_transferBlock (route : ℕ → ℕ → ℕ × ℕ) (state : LoggedDisk)
    (i : ℕ) : Commits state (state.transferBlock route i) := by
  unfold LoggedDisk.transferBlock LogHeader.blockno
  split
  · exact rfl
  · exact nofun

theorem commits_foldlM (route : ℕ → ℕ → ℕ × ℕ) (indices : List ℕ) (state : LoggedDisk) :
    Commits state (indices.foldlM (LoggedDisk.transferBlock route) state) := by
  induction indices generalizing state with
  | nil => exact rfl
  | cons i indices ih =>
    rw [List.foldlM_cons]
    exact Commits.bind (commits_transferBlock route state i) ih

/-- A commit neither begins nor ends operations. -/
theorem commits_commitNoLock (state : LoggedDisk) : Commits state state.commitNoLock := by
  unfold LoggedDisk.commitNoLock
  split
  · exact nofun
  split
  · refine Commits.bind (commits_foldlM _ _ state) fun logged => ?_
    refine Commits.bind (commits_foldlM _ _ logged.writeHead) fun installed => ?_
    exact rfl
  · exact rfl

end RxOs.LogUse
