import RxOs.Core.Exec
import RxOs.Fs.LogCrash

/-!
# Blocks as file-system code sees them

The code above the log obtains buffers with `BCache::read`, changes their data
and hands them to `Log::write`, all of it relative to the superblock.  A
`Volume` is the state of that code: the superblock, the logged disk and, as a
ghost, the history of the calls of `begin_op`, `Log::write` and `end_op`.
-/

namespace RxOs.Blocks

open Function ByteView WriteTrace Exec Params LogState Buffers LogCommit
open LogCrash

/-- The fields of the superblock that the kernel uses. -/
structure SuperBlock where
  size : ℕ
  ninodes : ℕ
  nlog : ℕ
  logstart : ℕ
  inodestart : ℕ
  bmapstart : ℕ
  deriving DecidableEq

namespace SuperBlock

/-- `SuperBlock::init`: the superblock as block 1 has it. -/
def init (block : Block) : Except Panic SuperBlock :=
  if u32At block 0 ≠ fsMagic then .error .superBlockMagic
  else .ok
    { size := (u32At block 4).toNat
      ninodes := (u32At block 12).toNat
      nlog := (u32At block 16).toNat
      logstart := (u32At block 20).toNat
      inodestart := (u32At block 24).toNat
      bmapstart := (u32At block 28).toNat }

def locateInode (sb : SuperBlock) (inum : ℕ) : Except Panic ℕ :=
  if sb.ninodes ≤ inum then .error .inumTooLarge
  else .ok (inum / ipb + sb.inodestart)

def locateBmp (sb : SuperBlock) (blockno : ℕ) : ℕ :=
  sb.bmapstart + blockno / bpb

/-- The place of the log, `SuperBlock::read_log`. -/
def logArea (sb : SuperBlock) : LogArea :=
  ⟨sb.logstart, sb.nlog⟩

end SuperBlock

inductive Event
  | beginOp
  | logWrite (blockno : UInt32)
  | endOp
  deriving DecidableEq

structure Volume where
  sb : SuperBlock
  logged : LoggedDisk
  events : List Event

abbrev FsM := EStateM Stop Volume

namespace Volume

def block (vol : Volume) (blockno : ℕ) : Block :=
  vol.logged.bufs.read blockno

def marked (vol : Volume) (blockno : ℕ) : Bool :=
  bitAt (vol.block (vol.sb.locateBmp blockno)) (blockno % bpb)

def logStep (step : LoggedDisk → Except Stop LoggedDisk) (event : Event) : FsM Unit :=
  fun vol =>
    match step vol.logged with
    | .ok logged => .ok () { vol with logged := logged, events := vol.events ++ [event] }
    | .error cause => .error cause { vol with events := vol.events ++ [event] }

end Volume

def orPanic {Value : Type} (outcome : Except Panic Value) : FsM Value :=
  match outcome with
  | .ok value => pure value
  | .error cause => throw (.panic cause)

/-- `BCache::read`. -/
def bread (blockno : ℕ) : FsM Block :=
  return (← get).block blockno

/-- The data of a held buffer is replaced and the buffer passed to
`Log::write`. -/
def logWrite (blockno : UInt32) (data : Block) : FsM Unit :=
  Volume.logStep (fun logged => logged.logWrite (blockno, data)) (.logWrite blockno)

def beginOp : FsM Unit :=
  Volume.logStep LoggedDisk.beginOp .beginOp

def endOp : FsM Unit :=
  Volume.logStep LoggedDisk.endOp .endOp

/-! ## What the primitives do -/

section Rules

variable {vol : Volume} {stopped : Stop → Volume → Prop}

@[simp]
theorem ensures_bread {blockno : ℕ} {returned : Block → Volume → Prop} :
    Ensures (bread blockno) vol returned stopped ↔
      returned (vol.block blockno) vol := Iff.rfl

theorem ensures_logStep {step : LoggedDisk → Except Stop LoggedDisk}
    {event : Event} {returned : Unit → Volume → Prop} :
    Ensures (Volume.logStep step event) vol returned stopped ↔
      match step vol.logged with
      | .ok logged => returned () { vol with
          logged := logged, events := vol.events ++ [event] }
      | .error cause => stopped cause { vol with
          events := vol.events ++ [event] } := by
  unfold Ensures Volume.logStep
  cases step vol.logged <;> rfl

/-- A call that stops in a primitive leaves superblock and disk as they were
when the primitive was called. -/
structure Halts (vol next : Volume) : Prop where
  sb_eq : next.sb = vol.sb
  logged_eq : next.logged = vol.logged

/-- The log has no slot left for a block that it does not hold yet. -/
def LogFull (cause : Stop) (vol : Volume) : Prop :=
  (cause = .panic .logFullOngoing ∨ cause = .panic .logFullTransaction) ∧
    min logSize vol.logged.log.size ≤ vol.logged.log.lh.len + 2

/-- What `Log::write` leaves behind: the buffer with its new data, and a header
that holds the block. -/
structure Wrote (blockno : UInt32) (data : Block) (vol next : Volume) :
    Prop where
  sb_eq : next.sb = vol.sb
  block_eq : next.block = update vol.block blockno.toNat data
  disk_eq : next.logged.bufs.disk = vol.logged.bufs.disk
  log_eq : vol.logged.log.write blockno = .ok next.logged.log
  events_eq : next.events = vol.events ++ [.logWrite blockno]

/-- No operation is open. -/
def NotRecording (cause : Stop) (vol : Volume) : Prop :=
  cause = .panic .logOutOfRecording ∧ vol.logged.log.outstanding = 0

/-- `Log::write` stores the block, finds the log full or is called outside of
every operation. -/
theorem ensures_logWrite_any (blockno : UInt32) (data : Block) :
    Ensures (logWrite blockno data) vol (fun _ => Wrote blockno data vol)
      (fun cause next => (LogFull cause vol ∨ NotRecording cause vol) ∧ Halts vol next) := by
  rw [logWrite, ensures_logStep]
  cases hwrite : vol.logged.log.write blockno with
  | ok log =>
    simp only [LoggedDisk.logWrite, hwrite]
    exact ⟨rfl, BufferedDisk.read_modify _ _ _, rfl, hwrite, rfl⟩
  | error cause =>
    simp only [LoggedDisk.logWrite, hwrite]
    refine ⟨?_, rfl, rfl⟩
    unfold Log.write at hwrite
    split at hwrite
    · next hfull =>
        simp only [Except.error.injEq] at hwrite
        subst hwrite
        exact .inl ⟨.inl rfl, by omega⟩
    · split at hwrite
      · next hclosed =>
          simp only [Except.error.injEq] at hwrite
          subst hwrite
          exact .inr ⟨rfl, by omega⟩
      · split at hwrite
        · simp at hwrite
        · split at hwrite
          · next hfull =>
              simp only [Except.error.injEq] at hwrite
              subst hwrite
              exact .inl ⟨.inr rfl, by omega⟩
          · simp at hwrite

/-- Inside an operation `Log::write` stores the block or finds the log full. -/
theorem ensures_logWrite (blockno : UInt32) (data : Block)
    (hopen : 0 < vol.logged.log.outstanding) :
    Ensures (logWrite blockno data) vol (fun _ => Wrote blockno data vol)
      (fun cause next => LogFull cause vol ∧ Halts vol next) := by
  refine (ensures_logWrite_any blockno data).imp (fun _ _ h => h) ?_
  rintro cause next ⟨hfull | hclosed, hhalts⟩
  · exact ⟨hfull, hhalts⟩
  · have := hclosed.2
    omega

end Rules

/-! ## Frames -/

/-- A log outside its commit, with a header that fits its area. -/
structure Recording (area : LogArea) (log : Log) : Prop where
  start_eq : log.start = area.start
  size_eq : log.size = area.nlog
  idle : log.commiting = false
  fits : Fits log.lh area

theorem Recording.write {area : LogArea} {log next : Log} {blockno : UInt32}
    (hrecording : Recording area log) (houtside : ¬area.Contains blockno.toNat)
    (hwrite : log.write blockno = .ok next) : Recording area next := by
  obtain ⟨-, ⟨-, rfl⟩ | ⟨hnew, hlen, hroom, rfl⟩⟩ := Log.write_eq_ok hwrite
  · exact hrecording
  · rw [hrecording.size_eq] at hroom
    exact ⟨hrecording.start_eq, hrecording.size_eq, hrecording.idle,
      (hrecording.fits.push hnew hlen hroom houtside).1⟩

/-- Only the blocks in `touched` may differ, and only they were logged. -/
structure Changes (touched : Set ℕ) (vol next : Volume) : Prop where
  sb_eq : next.sb = vol.sb
  block_eq : ∀ blockno ∉ touched, next.block blockno = vol.block blockno
  outstanding_eq : next.logged.log.outstanding = vol.logged.log.outstanding
  recording : ∀ area, (∀ blockno ∈ touched, ¬area.Contains blockno) →
    Recording area vol.logged.log → Recording area next.logged.log

theorem Changes.refl (touched : Set ℕ) (vol : Volume) : Changes touched vol vol :=
  ⟨rfl, fun _ _ => rfl, rfl, fun _ _ hrecording => hrecording⟩

theorem Changes.trans {touched : Set ℕ} {vol middle next : Volume}
    (hfirst : Changes touched vol middle)
    (hsecond : Changes touched middle next) : Changes touched vol next where
  sb_eq := hsecond.sb_eq.trans hfirst.sb_eq
  block_eq := fun blockno hblockno =>
    (hsecond.block_eq blockno hblockno).trans (hfirst.block_eq blockno hblockno)
  outstanding_eq := hsecond.outstanding_eq.trans hfirst.outstanding_eq
  recording := fun area houtside hrecording =>
    hsecond.recording area houtside (hfirst.recording area houtside hrecording)

theorem Changes.mono {touched wider : Set ℕ} {vol next : Volume}
    (hchanges : Changes touched vol next) (hsubset : touched ⊆ wider) :
    Changes wider vol next where
  sb_eq := hchanges.sb_eq
  block_eq := fun blockno hblockno => hchanges.block_eq blockno fun hmem => hblockno (hsubset hmem)
  outstanding_eq := hchanges.outstanding_eq
  recording := fun area houtside =>
    hchanges.recording area fun blockno hmem => houtside blockno (hsubset hmem)

theorem Wrote.changes {blockno : UInt32} {data : Block} {vol next : Volume}
    (hwrote : Wrote blockno data vol next) :
    Changes {blockno.toNat} vol next where
  sb_eq := hwrote.sb_eq
  block_eq := fun other hother => by rw [hwrote.block_eq, update_of_ne (by simpa using hother)]
  outstanding_eq := by
    obtain ⟨-, ⟨-, hlog⟩ | ⟨-, -, -, hlog⟩⟩ := Log.write_eq_ok hwrote.log_eq
    · rw [hlog]
    · rw [hlog]
  recording := fun area houtside hrecording => hrecording.write (houtside _ rfl) hwrote.log_eq

/-! ## Transactions -/

/-- What a transaction boundary leaves alone: everything outside the log. -/
structure Keeps (area : LogArea) (vol next : Volume) : Prop where
  sb_eq : next.sb = vol.sb
  block_eq : ∀ blockno, ¬area.Contains blockno →
    next.block blockno = vol.block blockno
  recording : Recording area next.logged.log

/-- `begin_op` admits the operation or goes to sleep. -/
theorem ensures_beginOp {area : LogArea} {vol : Volume}
    (hrecording : Recording area vol.logged.log) :
    Ensures beginOp vol (fun _ next => Keeps area vol next ∧
        next.logged.log.outstanding = vol.logged.log.outstanding + 1)
      (fun cause _ => cause = .sleep) := by
  rw [beginOp, ensures_logStep, LoggedDisk.beginOp]
  cases hbegin : vol.logged.log.beginOp with
  | none => rfl
  | some log =>
    obtain ⟨hidle, -, rfl⟩ := Log.beginOp_eq_some hbegin
    exact ⟨⟨rfl, fun _ _ => rfl, hrecording.start_eq, hrecording.size_eq,
      hidle, hrecording.fits⟩, rfl⟩

/-- The commit of a group leaves every block outside the log as the buffers
showed it. -/
theorem commitNoLock_keeps {area : LogArea} (state : LoggedDisk)
    (hstart : state.log.start = area.start) (hfits : Fits state.log.lh area)
    (hcommiting : state.log.commiting = true) :
    ∃ final, state.commitNoLock = .ok final ∧ final.log = state.log.emptied ∧
      ∀ blockno, ¬area.Contains blockno → final.bufs.read blockno = state.bufs.read blockno := by
  by_cases hlen : 0 < state.log.lh.len
  · obtain ⟨final, hcommit, hlog, hperforms⟩ :=
      commitNoLock_performs hfits hlen state rfl hstart hcommiting
    refine ⟨final, hcommit, hlog, ?_⟩
    have hlogged := logged_of_logWrites hfits hlen state.bufs.read fun _ _ => rfl
    rw [hperforms.read_eq, applyWrites_append]
    exact (hlogged.finish hfits hlen).2
  · refine ⟨state, ?_, ?_, fun _ _ => rfl⟩
    · rw [LoggedDisk.commitNoLock, hcommiting, if_neg (by simp), if_neg hlen]
    · have hzero : state.log.lh.len = 0 := by omega
      rw [Log.emptied, ← hzero]

/-- `end_op` of an open operation returns. -/
theorem ensures_endOp {area : LogArea} {vol : Volume} (hrecording : Recording area vol.logged.log)
    (hopen : 0 < vol.logged.log.outstanding) :
    Ensures endOp vol (fun _ next => Keeps area vol next ∧
        next.logged.log.outstanding + 1 = vol.logged.log.outstanding) (fun _ _ => False) := by
  rw [endOp, ensures_logStep, LoggedDisk.endOp]
  cases hend : vol.logged.log.endOp with
  | error cause =>
    have hidle := hrecording.idle
    unfold Log.endOp at hend
    split at hend
    · omega
    · simp only [hidle] at hend
      split at hend
      · next hflag => cases hflag
      · split at hend <;> cases hend
  | ok result =>
    obtain ⟨last, log⟩ := result
    obtain ⟨-, hidle, ⟨rfl, hone, rfl⟩ | ⟨rfl, hmore, rfl⟩⟩ := Log.endOp_eq_ok hend
    · obtain ⟨final, hcommit, hlog, hread⟩ := commitNoLock_keeps
        ⟨{ vol.logged.log with outstanding := 0, commiting := true },
          vol.logged.bufs⟩ hrecording.start_eq hrecording.fits rfl
      simp only [hcommit]
      refine ⟨⟨rfl, hread, ?_, ?_, rfl, ?_⟩, ?_⟩
      · exact (congrArg Log.start hlog).trans hrecording.start_eq
      · exact (congrArg Log.size hlog).trans hrecording.size_eq
      · apply fits_of_empty
        exact congrArg (fun log : Log => log.lh.len) hlog
      · rw [hone]
        exact congrArg (fun log : Log => log.outstanding + 1) hlog
    · refine ⟨⟨rfl, fun _ _ => rfl, hrecording.start_eq,
        hrecording.size_eq, hidle, hrecording.fits⟩, ?_⟩
      change vol.logged.log.outstanding - 1 + 1 = _
      omega

end RxOs.Blocks
