import RxOs.Fs.BufContents
import RxOs.Fs.Inode

/-!
# The inode table under several processes

Sixteen inodes share a block.  `DiskInode::alloc` and `InodeData::update` read
the block through the buffer cache, edit one record in place and hand the buffer
to `Log::write`.  Processes take the steps of the cache in any order; those that
are not in one of these calls use it for anything else, such as other blocks,
reading the table and committing the log.  As long as no pin is lost, nobody
changes a record but the one it works on, and a number that `alloc` has returned
is not returned again before its record has been freed.
-/

namespace RxOs.InodeTable

open Function ByteView Params Blocks BitMap Dinode Inode Transition
open BufCache (Cache Handle Phase)
open BufCounts (Apart)
open BufContents (Faithful InLog Homely Transparent remember)

/-! ## Records -/

def blockOf (sb : SuperBlock) (inum : ℕ) : UInt32 := .ofNat (inodeBlock sb inum)

def offsetOf (inum : ℕ) : ℕ := dinodeSize * (inum % ipb)

def recordAt (sb : SuperBlock) (blocks : UInt32 → Block) (inum : ℕ) : DiskInode :=
  DiskInode.load (blocks (blockOf sb inum)) (offsetOf inum)

def recordByte (sb : SuperBlock) (blocks : UInt32 → Block) (inum index : ℕ) : UInt8 :=
  byteAt (blocks (blockOf sb inum)) (offsetOf inum + index)

def setRecord (sb : SuperBlock) (blocks : UInt32 → Block) (inum : ℕ) (dinode : DiskInode) :
    UInt32 → Block :=
  update blocks (blockOf sb inum)
    (DiskInode.store (blocks (blockOf sb inum)) (offsetOf inum) dinode)

def InodeArea (sb : SuperBlock) (blockno : UInt32) : Prop :=
  sb.inodestart ≤ blockno.toNat ∧ blockno.toNat < sb.inodestart + (sb.ninodes / ipb + 1)

instance (sb : SuperBlock) (blockno : UInt32) : Decidable (InodeArea sb blockno) :=
  inferInstanceAs (Decidable (_ ∧ _))

section Records

variable {sb : SuperBlock} {blocks : UInt32 → Block} {inum other : ℕ}
variable {dinode : DiskInode}

theorem inodeArea_blockOf (hlayout : Layout sb) (hinum : inum < sb.ninodes) :
    InodeArea sb (blockOf sb inum) := by
  rw [InodeArea, blockOf, toNat_inodeBlock hlayout hinum, inodeBlock, show ipb = 16 from rfl]
  omega

theorem load_store_offsetOf (block : Block) :
    DiskInode.load (DiskInode.store block (offsetOf inum) dinode) (offsetOf inum) = dinode := by
  refine DiskInode.load_store _ _ ?_
  rw [offsetOf, show dinodeSize = 64 from rfl, show ipb = 16 from rfl, show bsize = 1024 from rfl]
  omega

theorem recordAt_setRecord_self : recordAt sb (setRecord sb blocks inum dinode) inum = dinode := by
  rw [recordAt, setRecord, update_self, load_store_offsetOf]

theorem recordByte_setRecord (hlayout : Layout sb) (hinum : inum < sb.ninodes)
    (hothers : other < sb.ninodes) (hne : other ≠ inum) {index : ℕ} (hindex : index < dinodeSize) :
    recordByte sb (setRecord sb blocks inum dinode) other index =
      recordByte sb blocks other index := by
  rw [recordByte, recordByte, setRecord]
  by_cases hblock : blockOf sb other = blockOf sb inum
  · rw [hblock, update_self, DiskInode.byteAt_store]
    have hsame := congrArg UInt32.toNat hblock
    rw [blockOf, blockOf, toNat_inodeBlock hlayout hothers, toNat_inodeBlock hlayout hinum,
      inodeBlock, inodeBlock] at hsame
    rw [offsetOf, offsetOf]
    rw [show dinodeSize = 64 from rfl, show ipb = 16 from rfl] at *
    omega
  · rw [update_of_ne hblock]

theorem recordAt_congr {blocks' : UInt32 → Block} (hbytes : ∀ index < dinodeSize,
      recordByte sb blocks' inum index = recordByte sb blocks inum index) :
    recordAt sb blocks' inum = recordAt sb blocks inum := by
  apply DiskInode.load_congr
  intro index hle hlt
  obtain ⟨lane, rfl⟩ := Nat.exists_eq_add_of_le hle
  exact hbytes lane (by omega)

end Records

/-! ## Processes -/

/-- What a process is about: allocating an inode or storing its copy of one. -/
inductive Task
  | alloc (itype : InodeType)
  | update (dinode : DiskInode)

def Task.record : Task → DiskInode
  | .alloc itype => { DiskInode.new with itype := itype }
  | .update dinode => dinode

/-- Where a process is.  From `holding` to `wrote` it holds the buffer of the
block of its inode. -/
inductive Stage
  | idle
  | waiting (task : Task) (inum : ℕ)
  /-- `BCache::get` has found or recycled a slot. -/
  | reading (task : Task) (inum : ℕ)
  | holding (task : Task) (inum : ℕ)
  /-- `try_alloc` has found the record free. -/
  | found (itype : InodeType) (inum : ℕ)
  /-- `try_alloc` has failed. -/
  | passed (itype : InodeType) (inum : ℕ)
  | wrote (task : Task) (inum : ℕ)
  | leaving
  | panicked

/-- The buffer cache, the contents last stored into each block and the
processes. -/
structure Machine (Proc : Type) where
  cache : Cache Proc
  stored : UInt32 → Block
  stage : Proc → Stage

inductive Action (Proc : Type)
  | call (proc : Proc) (task : Task) (inum : ℕ)
  | fail (proc : Proc)
  | look (buf : Handle Proc)
  | edit (buf : Handle Proc)
  | cache (action : BufCache.Action Proc)

/-- Calls begin with the number of the inode to be stored, or with number 1 of
the loop of `alloc`, which is not called for a free inode. -/
def Task.starts : Task → ℕ → Bool
  | .alloc itype, inum => itype ≠ .empty ∧ inum = 1
  | .update _, _ => true

/-- The loop of `alloc` has come to its end. -/
def Task.exhausted (sb : SuperBlock) : Task → ℕ → Bool
  | .alloc _, inum => sb.size ≤ inum
  | .update _, _ => false

def Stage.writes : Stage → Option (Task × ℕ)
  | .found itype inum => some (.alloc itype, inum)
  | .holding (.update dinode) inum => some (.update dinode, inum)
  | _ => none

/-- Code outside of `alloc` and `update` stores nothing into the inode table;
the recovery of the log is over. -/
def Spares {Proc : Type} (sb : SuperBlock) : BufCache.Action Proc → Bool
  | .store buf _ => ¬InodeArea sb buf.blockno
  | .restore _ _ => false
  | _ => true

section Machine

variable {Proc : Type} [DecidableEq Proc]

/-- The buffer is one of the block of the inode. -/
def Matches (sb : SuperBlock) (cache : Cache Proc) (inum : ℕ) (buf : Handle Proc) : Prop :=
  buf.dev = cache.dev ∧ buf.blockno = blockOf sb inum

instance (sb : SuperBlock) (cache : Cache Proc) (inum : ℕ) (buf : Handle Proc) :
    Decidable (Matches sb cache inum buf) :=
  inferInstanceAs (Decidable (_ ∧ _))

def Stage.when (stage : Stage) (condition : Prop) [Decidable condition] : Option Stage :=
  if condition then some stage else none

/-- The steps of the cache that a process takes at a stage, and where they lead
it: `BCache::read`, `Log::write` and the drop of the buffer. -/
def follow (sb : SuperBlock) (cache : Cache Proc) : Stage → BufCache.Action Proc → Option Stage
  | .idle, action => Stage.idle.when (Spares sb action)
  | .waiting task inum, .get _ dev blockno =>
    (Stage.reading task inum).when (task.exhausted sb inum = false ∧ dev = cache.dev ∧
      (sb.locateInode inum).toOption = some blockno.toNat)
  | .reading task inum, .lock buf => (Stage.holding task inum).when (Matches sb cache inum buf)
  | .holding task inum, .load buf => (Stage.holding task inum).when (Matches sb cache inum buf)
  | .passed itype inum, .unlock buf => (Stage.passed itype inum).when (Matches sb cache inum buf)
  | .passed itype inum, .release buf =>
    (Stage.waiting (.alloc itype) (inum + 1)).when (Matches sb cache inum buf)
  | .wrote task inum, .logWrite buf | .wrote task inum, .pin buf =>
    (Stage.wrote task inum).when (Matches sb cache inum buf)
  | .wrote _ inum, .unlock buf => Stage.leaving.when (Matches sb cache inum buf)
  | .leaving, .release _ => some .idle
  | _, _ => none

namespace Machine

def goto (machine : Machine Proc) (proc : Proc) (stage : Stage) : Machine Proc :=
  { machine with stage := update machine.stage proc stage }

def act (machine : Machine Proc) (proc : Proc) (stage : Stage)
    (action : BufCache.Action Proc) : Option (Machine Proc) :=
  (machine.cache.step action).map fun cache =>
    { cache
      stored := remember machine.stored action
      stage := update machine.stage proc stage }

/-- The store of a process that writes the record of an inode. -/
def edition (machine : Machine Proc) (buf : Handle Proc) (task : Task) (inum : ℕ) :
    BufCache.Action Proc :=
  .store buf (DiskInode.store (machine.cache.data buf.index) (offsetOf inum) task.record)

def step (sb : SuperBlock) (machine : Machine Proc) : Action Proc → Option (Machine Proc)
  | .call proc task inum =>
    match machine.stage proc with
    | .idle =>
      if task.starts inum ∧ ∀ buf ∈ machine.cache.handles, buf.proc ≠ proc then
        some (machine.goto proc (.waiting task inum))
      else none
    | _ => none
  | .fail proc =>
    match machine.stage proc with
    | .waiting task inum =>
      if task.exhausted sb inum ∨ (sb.locateInode inum).toOption = none then
        some (machine.goto proc .panicked)
      else none
    | _ => none
  | .look buf =>
    match machine.stage buf.proc with
    | .holding (.alloc itype) inum =>
      if machine.cache.Has buf.proc buf ∧ Matches sb machine.cache inum buf then
        some (machine.goto buf.proc
          (if (DiskInode.load (machine.cache.data buf.index) (offsetOf inum)).itype = .empty then
            .found itype inum else .passed itype inum))
      else none
    | _ => none
  | .edit buf =>
    match (machine.stage buf.proc).writes with
    | some (task, inum) =>
      if Matches sb machine.cache inum buf then
        machine.act buf.proc (.wrote task inum) (machine.edition buf task inum)
      else none
    | none => none
  | .cache action =>
    match action.agent with
    | some proc =>
      match follow sb machine.cache (machine.stage proc) action with
      | some stage => machine.act proc stage action
      | none => none
    | none => none

end Machine

/-- Everything a process can do at a stage. -/
inductive Follows (sb : SuperBlock) (cache : Cache Proc) :
    Stage → BufCache.Action Proc → Stage → Prop
  | roams {action} (hspares : Spares sb action = true) : Follows sb cache .idle action .idle
  | gets {task inum proc dev blockno} (hinum : inum < sb.ninodes) :
      Follows sb cache (.waiting task inum) (.get proc dev blockno) (.reading task inum)
  | locks {task inum buf} (hmatches : Matches sb cache inum buf) :
      Follows sb cache (.reading task inum) (.lock buf) (.holding task inum)
  | loads {task inum buf} (hmatches : Matches sb cache inum buf) :
      Follows sb cache (.holding task inum) (.load buf) (.holding task inum)
  | skips {itype inum buf} :
      Follows sb cache (.passed itype inum) (.unlock buf) (.passed itype inum)
  | continues {itype inum buf} :
      Follows sb cache (.passed itype inum) (.release buf) (.waiting (.alloc itype) (inum + 1))
  | logs {task inum buf} (hmatches : Matches sb cache inum buf) :
      Follows sb cache (.wrote task inum) (.logWrite buf) (.wrote task inum)
  | pins {task inum buf} (hmatches : Matches sb cache inum buf) :
      Follows sb cache (.wrote task inum) (.pin buf) (.wrote task inum)
  | leaves {task inum buf} : Follows sb cache (.wrote task inum) (.unlock buf) .leaving
  | drops {buf} : Follows sb cache .leaving (.release buf) .idle

theorem Stage.when_eq_some {stage after : Stage} {condition : Prop} [Decidable condition]
    (hwhen : stage.when condition = some after) : condition ∧ after = stage := by
  obtain ⟨hcondition, heq⟩ := Option.ite_none_right_eq_some.mp hwhen
  exact ⟨hcondition, (Option.some.inj heq).symm⟩

omit [DecidableEq Proc] in
theorem follow_follows {sb : SuperBlock} {cache : Cache Proc} {stage after : Stage}
    {action : BufCache.Action Proc} (hfollow : follow sb cache stage action = some after) :
    Follows sb cache stage action after := by
  unfold follow at hfollow
  split at hfollow
  case h_10 => cases hfollow; exact .drops
  case h_11 => cases hfollow
  all_goals obtain ⟨hcondition, rfl⟩ := Stage.when_eq_some hfollow
  · exact .roams hcondition
  · refine .gets ?_
    obtain ⟨-, -, hlocate⟩ := hcondition
    unfold SuperBlock.locateInode at hlocate
    split at hlocate
    · cases hlocate
    · omega
  · exact .locks hcondition
  · exact .loads hcondition
  · exact .skips
  · exact .continues
  · exact .logs hcondition
  · exact .pins hcondition
  · exact .leaves

/-- Everything a step can do. -/
inductive Moves (sb : SuperBlock) (machine : Machine Proc) : Action Proc → Machine Proc → Prop
  | starts {proc task inum} (hstarts : task.starts inum = true) :
      Moves sb machine (.call proc task inum) (machine.goto proc (.waiting task inum))
  | fails {proc} : Moves sb machine (.fail proc) (machine.goto proc .panicked)
  | finds {buf itype inum} (hstage : machine.stage buf.proc = .holding (.alloc itype) inum)
      (hhas : machine.cache.Has buf.proc buf) (hmatches : Matches sb machine.cache inum buf)
      (hempty : (DiskInode.load (machine.cache.data buf.index) (offsetOf inum)).itype = .empty) :
      Moves sb machine (.look buf) (machine.goto buf.proc (.found itype inum))
  | passes {buf itype inum} (hstage : machine.stage buf.proc = .holding (.alloc itype) inum) :
      Moves sb machine (.look buf) (machine.goto buf.proc (.passed itype inum))
  | edits {buf task inum next} (hwrites : (machine.stage buf.proc).writes = some (task, inum))
      (hmatches : Matches sb machine.cache inum buf)
      (hact : machine.act buf.proc (.wrote task inum) (machine.edition buf task inum) = some next) :
      Moves sb machine (.edit buf) next
  | acts {action proc stage next} (hagent : action.agent = some proc)
      (hfollows : Follows sb machine.cache (machine.stage proc) action stage)
      (hact : machine.act proc stage action = some next) : Moves sb machine (.cache action) next

variable {sb : SuperBlock} {machine next last : Machine Proc} {action : Action Proc}
variable {record : List (Machine Proc × Action Proc)}

theorem Machine.step_moves (hstep : machine.step sb action = some next) :
    Moves sb machine action next := by
  cases action with
  | call proc task inum =>
    simp only [step] at hstep
    split at hstep
    · obtain ⟨hstarts, ⟨⟩⟩ := Option.ite_none_right_eq_some.mp hstep
      exact .starts hstarts.1
    · cases hstep
  | fail proc =>
    simp only [step] at hstep
    split at hstep
    · obtain ⟨-, ⟨⟩⟩ := Option.ite_none_right_eq_some.mp hstep
      exact .fails
    · cases hstep
  | look buf =>
    simp only [step] at hstep
    split at hstep
    · next itype inum hstage =>
        obtain ⟨⟨hhas, hmatches⟩, ⟨⟩⟩ := Option.ite_none_right_eq_some.mp hstep
        split
        · next hempty => exact .finds hstage hhas hmatches hempty
        · exact .passes hstage
    · cases hstep
  | edit buf =>
    simp only [step] at hstep
    split at hstep
    · next task inum hwrites =>
        obtain ⟨hmatches, hact⟩ := Option.ite_none_right_eq_some.mp hstep
        exact .edits hwrites hmatches hact
    · cases hstep
  | cache action =>
    simp only [step] at hstep
    split at hstep
    · next proc hagent =>
        split at hstep
        · next stage hfollow => exact .acts hagent (follow_follows hfollow) hstep
        · cases hstep
    · cases hstep

/-! ## What holds at each stage -/

def Task.Fits : Task → ℕ → Prop
  | .alloc itype, inum => itype ≠ .empty ∧ 1 ≤ inum
  | .update _, _ => True

theorem Task.fits_of_starts {task : Task} {inum : ℕ}
    (hstarts : task.starts inum = true) : task.Fits inum := by
  cases task with
  | alloc itype =>
    obtain ⟨hitype, rfl⟩ := of_decide_eq_true hstarts
    exact ⟨hitype, Nat.le_refl 1⟩
  | update dinode => trivial

/-- The process has the sleep lock of the slot that shows the block of the
inode. -/
def Holds (sb : SuperBlock) (cache : Cache Proc) (proc : Proc) (inum : ℕ) : Prop :=
  inum < sb.ninodes ∧ ∃ buf ∈ cache.handles,
    buf.proc = proc ∧ Matches sb cache inum buf ∧ buf.phase.holds = true

def Stage.Fits (sb : SuperBlock) (cache : Cache Proc) (stored : UInt32 → Block) (proc : Proc) :
    Stage → Prop
  | .idle | .leaving | .panicked => True
  | .waiting task inum => task.Fits inum
  | .reading task inum => task.Fits inum ∧ inum < sb.ninodes
  | .holding task inum => task.Fits inum ∧ Holds sb cache proc inum
  | .found itype inum => (Task.alloc itype).Fits inum ∧ Holds sb cache proc inum ∧
      (recordAt sb stored inum).itype = .empty
  | .passed itype inum => (Task.alloc itype).Fits inum
  | .wrote task inum => task.Fits inum ∧ Holds sb cache proc inum ∧
      recordAt sb stored inum = task.record

/-- The cache shows what was stored, and every process can rely on what it has
seen. -/
structure Tidy (sb : SuperBlock) (machine : Machine Proc) : Prop where
  faithful : Faithful machine.stored machine.cache
  apart : ∀ blockno, InodeArea sb blockno → ¬InLog machine.cache.machine.log blockno
  fits : ∀ proc, (machine.stage proc).Fits sb machine.cache machine.stored proc

/-- What is asked of the steps of the cache. -/
def OfCache (property : Cache Proc → BufCache.Action Proc → Prop) (machine : Machine Proc) :
    Action Proc → Prop
  | .cache action => property machine.cache action
  | .call _ _ _ | .fail _ | .look _ | .edit _ => True

instance (property : Cache Proc → BufCache.Action Proc → Prop)
    [∀ cache action, Decidable (property cache action)] (machine : Machine Proc) :
    (action : Action Proc) → Decidable (OfCache property machine action)
  | .cache action => inferInstanceAs (Decidable (property machine.cache action))
  | .call _ _ _ | .fail _ | .look _ | .edit _ => .isTrue trivial

/-- Nobody changes a reference count between the two halves of a `pin` or
`unpin` of the slot, and only blocks of the log's device outside the log area
are changed and logged. -/
def Careful : Machine Proc → Action Proc → Prop :=
  OfCache fun cache action => Apart cache action ∧ Homely cache action

omit [DecidableEq Proc] in
/-- A process relies on the buffers it holds and on their blocks only. -/
theorem Stage.Fits.frame {stage : Stage} {cache next : Cache Proc} {stored after : UInt32 → Block}
    {proc : Proc} (hfits : stage.Fits sb cache stored proc) (hdev : next.dev = cache.dev)
    (hkept : ∀ buf ∈ cache.handles, buf.proc = proc → buf.dev = cache.dev →
      buf.phase.holds = true → buf ∈ next.handles ∧ after buf.blockno = stored buf.blockno) :
    stage.Fits sb next after proc := by
  have hholds : ∀ {inum}, Holds sb cache proc inum → Holds sb next proc inum ∧
      recordAt sb after inum = recordAt sb stored inum := by
    rintro inum ⟨hinum, buf, hmem, hproc, ⟨hbufdev, hblockno⟩, hphase⟩
    obtain ⟨hnext, hsame⟩ := hkept buf hmem hproc hbufdev hphase
    rw [recordAt, recordAt, ← hblockno, hsame]
    exact ⟨⟨hinum, buf, hnext, hproc, ⟨hbufdev.trans hdev.symm, hblockno⟩, hphase⟩, rfl⟩
  cases stage with
  | holding task inum => exact ⟨hfits.1, (hholds hfits.2).1⟩
  | found itype inum | wrote task inum =>
    obtain ⟨hnext, hrecord⟩ := hholds hfits.2.1
    exact ⟨hfits.1, hnext, hrecord ▸ hfits.2.2⟩
  | _ => exact hfits

namespace Tidy

theorem goto (htidy : Tidy sb machine) {proc : Proc} {stage : Stage}
    (hfits : stage.Fits sb machine.cache machine.stored proc) :
    Tidy sb (machine.goto proc stage) := by
  refine ⟨htidy.faithful, htidy.apart, fun other => ?_⟩
  change Stage.Fits sb _ _ _ (update machine.stage proc stage other)
  by_cases hother : other = proc
  · rw [hother, update_self]
    exact hfits
  · rw [update_of_ne hother]
    exact htidy.fits other

/-- What is stored changes only under the lock of the block. -/
theorem stored_eq (htidy : Tidy sb machine) {action : BufCache.Action Proc} {cache : Cache Proc}
    {proc : Proc} (hstep : machine.cache.step action = some cache)
    (hhomely : Homely machine.cache action) (hagent : action.agent = some proc)
    (hrestore : ∀ buf block, action ≠ .restore buf block) {buf : Handle Proc}
    (hmem : buf ∈ machine.cache.handles) (hproc : buf.proc ≠ proc)
    (hdev : buf.dev = machine.cache.dev) (hholds : buf.phase.holds = true) :
    remember machine.stored action buf.blockno = machine.stored buf.blockno := by
  cases action with
  | store other block =>
    cases Cache.step_effect hstep with
    | store hothers hphase hop =>
      refine update_of_ne (fun hblockno => hproc ?_) _ _
      obtain rfl := htidy.faithful.counted.holder_eq hothers hmem hhomely.1 hdev hblockno
        (Phase.holds_of_usable hphase) hholds
      exact Option.some.inj hagent
  | restore other block => exact absurd rfl (hrestore other block)
  | _ => rfl

/-- A step of the cache by one process. -/
theorem act (htidy : Tidy sb machine) {action : BufCache.Action Proc} {proc : Proc}
    {stage : Stage} (hact : machine.act proc stage action = some next)
    (hagent : action.agent = some proc) (hrestore : ∀ buf block, action ≠ .restore buf block)
    (hcareful : Apart machine.cache action ∧ Homely machine.cache action)
    (hfits : ∀ cache, machine.cache.step action = some cache → cache.dev = machine.cache.dev →
      stage.Fits sb cache (remember machine.stored action) proc) : Tidy sb next := by
  obtain ⟨cache, hstep, rfl⟩ := Option.map_eq_some_iff.mp hact
  obtain ⟨hdev, hstart, hsize⟩ := Cache.place_of_step hstep
  refine ⟨BufContents.faithful_step _ _ _ _ htidy.faithful hcareful hstep, ?_, fun other => ?_⟩
  · intro blockno harea
    change ¬InLog cache.machine.log blockno
    rw [InLog, hstart, hsize]
    exact htidy.apart blockno harea
  · change Stage.Fits sb cache _ _ (update machine.stage proc stage other)
    by_cases hother : other = proc
    · rw [hother, update_self]
      exact hfits cache hstep hdev
    · rw [update_of_ne hother]
      refine (htidy.fits other).frame hdev fun buf hmem hproc hbufdev hholds => ?_
      have hne : buf.proc ≠ proc := fun heq => hother (hproc.symm.trans heq)
      refine ⟨Cache.mem_handles_of_step hstep ?_ hmem, ?_⟩
      · rw [hagent]
        exact fun heq => hne (Option.some.inj heq).symm
      · exact htidy.stored_eq hstep hcareful.2 hagent hrestore hmem hne hbufdev hholds

omit [DecidableEq Proc] in
theorem writes (htidy : Tidy sb machine) {proc : Proc} {task : Task} {inum : ℕ}
    (hwrites : (machine.stage proc).writes = some (task, inum)) :
    task.Fits inum ∧ inum < sb.ninodes ∧ ∀ itype, task = .alloc itype →
        (recordAt sb machine.stored inum).itype = .empty := by
  have hfits := htidy.fits proc
  unfold Stage.writes at hwrites
  split at hwrites
  · next hstage =>
      cases hwrites
      rw [hstage] at hfits
      exact ⟨hfits.1, hfits.2.1.1, fun _ _ => hfits.2.2⟩
  · next hstage =>
      cases hwrites
      rw [hstage] at hfits
      exact ⟨hfits.1, hfits.2.1, nofun⟩
  · cases hwrites

omit [DecidableEq Proc] in
/-- A buffer of a block of the table that has been read shows what was stored. -/
theorem data_eq (htidy : Tidy sb machine) (hlayout : Layout sb) {buf : Handle Proc} {inum : ℕ}
    (hinum : inum < sb.ninodes) (hmem : buf ∈ machine.cache.handles)
    (hread : BufContents.hasRead buf.phase = true) (hmatches : Matches sb machine.cache inum buf) :
    machine.cache.data buf.index = machine.stored (blockOf sb inum) := by
  obtain ⟨hdev, hblockno⟩ := hmatches
  rw [← hblockno]
  refine htidy.faithful.transparent.seen buf hmem hread hdev (htidy.apart _ ?_)
  exact hblockno ▸ inodeArea_blockOf hlayout hinum

end Tidy

omit [DecidableEq Proc] in
/-- The agent of the step has the lock after it. -/
theorem holds_of_entered {cache next : Cache Proc} {buf : Handle Proc} {phase : Phase} {inum : ℕ}
    (hinum : inum < sb.ninodes) (hmatches : Matches sb cache inum buf)
    (hdev : next.dev = cache.dev) (hphase : phase.holds = true)
    (hentered : { buf with phase := phase } ∈ next.handles) : Holds sb next buf.proc inum :=
  ⟨hinum, _, hentered, rfl, ⟨hmatches.1.trans hdev.symm, hmatches.2⟩, hphase⟩

theorem fits_of_follows (htidy : Tidy sb machine) {action : BufCache.Action Proc} {proc : Proc}
    {stage : Stage} {cache : Cache Proc} (hagent : action.agent = some proc)
    (hfollows : Follows sb machine.cache (machine.stage proc) action stage)
    (hstep : machine.cache.step action = some cache) (hdev : cache.dev = machine.cache.dev) :
    stage.Fits sb cache (remember machine.stored action) proc := by
  have hfits := htidy.fits proc
  generalize machine.stage proc = before at hfollows hfits
  have heffect := Cache.step_effect hstep
  cases hfollows with
  | roams | leaves | drops => trivial
  | gets hinum => exact ⟨hfits, hinum⟩
  | skips => exact hfits
  | continues => exact ⟨hfits.1, Nat.le_succ_of_le hfits.2⟩
  | locks hmatches =>
    obtain rfl := Option.some.inj hagent
    cases heffect with
    | lock =>
      exact ⟨hfits.1, holds_of_entered hfits.2 hmatches hdev rfl (Multiset.mem_cons_self _ _)⟩
  | @loads task inum buf hmatches =>
    obtain rfl := Option.some.inj hagent
    cases heffect with
    | load =>
      obtain ⟨valid, data, hload⟩ := machine.cache.load_eq buf
      rw [hload] at hdev ⊢
      exact ⟨hfits.1, holds_of_entered hfits.2.1 hmatches hdev rfl (Multiset.mem_cons_self _ _)⟩
  | logs hmatches =>
    obtain rfl := Option.some.inj hagent
    cases heffect with
    | absorb | loadPin =>
      exact ⟨hfits.1, holds_of_entered hfits.2.1.1 hmatches hdev rfl
        (Multiset.mem_cons_self _ _), hfits.2.2⟩
  | pins hmatches =>
    obtain rfl := Option.some.inj hagent
    cases heffect with
    | pin =>
      exact ⟨hfits.1, holds_of_entered hfits.2.1.1 hmatches hdev rfl
        (Multiset.mem_cons_self _ _), hfits.2.2⟩

theorem tidy_step (hlayout : Layout sb) (machine : Machine Proc) (action : Action Proc)
    (next : Machine Proc) (htidy : Tidy sb machine) (hcareful : Careful machine action)
    (hstep : machine.step sb action = some next) : Tidy sb next := by
  cases Machine.step_moves hstep with
  | starts hstarts => exact htidy.goto (Task.fits_of_starts hstarts)
  | fails => exact htidy.goto trivial
  | @finds buf itype inum hstage hhas hmatches hempty =>
    have hfits := htidy.fits buf.proc
    rw [hstage] at hfits
    refine htidy.goto ⟨hfits.1, hfits.2, ?_⟩
    have hread : BufContents.hasRead buf.phase = true := by rw [hhas.2.1]; rfl
    rw [recordAt, ← htidy.data_eq hlayout hfits.2.1 hhas.1 hread hmatches]
    exact hempty
  | @passes buf itype inum hstage =>
    have hfits := htidy.fits buf.proc
    rw [hstage] at hfits
    exact htidy.goto hfits.1
  | @edits buf task inum _ hwrites hmatches hact =>
    obtain ⟨hfits, hinum, -⟩ := htidy.writes hwrites
    have harea := hmatches.2 ▸ inodeArea_blockOf hlayout hinum
    refine htidy.act hact rfl nofun ⟨trivial, hmatches.1, htidy.apart _ harea⟩ ?_
    intro cache hstore hdev
    refine ⟨hfits, ?_, ?_⟩
    · cases Cache.step_effect hstore with
      | store => exact holds_of_entered hinum hmatches hdev rfl (Multiset.mem_cons_self _ _)
    · change DiskInode.load (update machine.stored buf.blockno _ (blockOf sb inum)) _ = _
      rw [hmatches.2, update_self, load_store_offsetOf]
  | @acts action proc stage _ hagent hfollows hact =>
    refine htidy.act hact hagent ?_ hcareful
      fun cache hcache hdev => fits_of_follows htidy hagent hfollows hcache hdev
    rintro buf block rfl
    generalize machine.stage proc = before at hfollows
    cases hfollows with
    | roams hspares => cases hspares

/-! ## Isolation -/

def Machine.written (machine : Machine Proc) : Action Proc → Option (Task × ℕ)
  | .edit buf => (machine.stage buf.proc).writes
  | .call _ _ _ | .fail _ | .look _ | .cache _ => none

/-- The number and type with which `alloc` returns, once it has let go of the
buffer. -/
def Machine.returned (machine : Machine Proc) : Action Proc → Option (InodeType × ℕ)
  | .cache (.unlock buf) =>
    match machine.stage buf.proc with
    | .wrote (.alloc itype) inum => some (itype, inum)
    | _ => none
  | _ => none

/-- The step frees an inode: a copy without type is stored. -/
def Machine.frees (machine : Machine Proc) (action : Action Proc) (inum : ℕ) : Bool :=
  match machine.written action with
  | some (.update dinode, other) => dinode.itype = .empty ∧ other = inum
  | _ => false

/-- What a step does to the inode table. -/
structure Isolated (sb : SuperBlock) (machine : Machine Proc)
    (action : Action Proc) (next : Machine Proc) : Prop where
  /-- Every record but the one that is written stays. -/
  others : ∀ inum < sb.ninodes, (∀ task, machine.written action ≠ some (task, inum)) →
    ∀ index < dinodeSize, recordByte sb next.stored inum index =
      recordByte sb machine.stored inum index
  /-- A process that writes a record changes no block outside the table. -/
  outside : machine.written action ≠ none → ∀ blockno, ¬InodeArea sb blockno →
    next.stored blockno = machine.stored blockno
  /-- `alloc` writes to a free record of the table. -/
  takes : ∀ itype inum, machine.written action = some (.alloc itype, inum) →
      1 ≤ inum ∧ inum < sb.ninodes ∧ (recordAt sb machine.stored inum).itype = .empty
  /-- When it returns, the record is zero but for its type. -/
  returns : ∀ itype inum, machine.returned action = some (itype, inum) →
    1 ≤ inum ∧ inum < sb.ninodes ∧ recordAt sb machine.stored inum =
        { DiskInode.new with itype := itype }

/-- Between two returns with the same number its record is freed. -/
def Exclusive (record : List (Machine Proc × Action Proc)) : Prop :=
  ∀ (before between after : List (Machine Proc × Action Proc))
    (left right : Machine Proc × Action Proc) (itype jtype : InodeType) (inum : ℕ),
    record = before ++ left :: (between ++ right :: after) →
    left.1.returned left.2 = some (itype, inum) →
    right.1.returned right.2 = some (jtype, inum) →
      ∃ entry ∈ between, entry.1.frees entry.2 inum = true

omit [DecidableEq Proc] in
theorem returned_eq_some {itype : InodeType} {inum : ℕ}
    (hreturned : machine.returned action = some (itype, inum)) : ∃ buf,
      action = .cache (.unlock buf) ∧ machine.stage buf.proc = .wrote (.alloc itype) inum := by
  unfold Machine.returned at hreturned
  split at hreturned
  · next buf =>
      split at hreturned
      · next hstage =>
          cases hreturned
          exact ⟨buf, rfl, hstage⟩
      · cases hreturned
  · cases hreturned

omit [DecidableEq Proc] in
theorem Tidy.written (htidy : Tidy sb machine) {task : Task} {inum : ℕ}
    (hwritten : machine.written action = some (task, inum)) :
    task.Fits inum ∧ inum < sb.ninodes ∧ ∀ itype, task = .alloc itype →
      (recordAt sb machine.stored inum).itype = .empty := by
  cases action with
  | edit buf => exact htidy.writes hwritten
  | _ => cases hwritten

/-- A step writes one record, as it is stored, or none. -/
theorem stored_of_step (hlayout : Layout sb) (htidy : Tidy sb machine)
    (hstep : machine.step sb action = some next) : (machine.written action = none ∧
        ∀ blockno, InodeArea sb blockno → next.stored blockno = machine.stored blockno) ∨
      ∃ task inum, machine.written action = some (task, inum) ∧
        next.stored = setRecord sb machine.stored inum task.record := by
  cases Machine.step_moves hstep with
  | starts | fails | finds | passes => exact .inl ⟨rfl, fun _ _ => rfl⟩
  | @edits buf task inum _ hwrites hmatches hact =>
    obtain ⟨-, hinum, -⟩ := htidy.writes hwrites
    obtain ⟨cache, hstore, rfl⟩ := Option.map_eq_some_iff.mp hact
    refine .inr ⟨task, inum, hwrites, ?_⟩
    cases Cache.step_effect hstore with
    | store hmem hphase hop =>
      have hdata := htidy.data_eq hlayout hinum hmem
        (BufContents.hasRead_of_usable hphase) hmatches
      change update machine.stored buf.blockno _ = _
      rw [hmatches.2, hdata]
      rfl
  | @acts action proc stage _ hagent hfollows hact =>
    obtain ⟨cache, hcache, rfl⟩ := Option.map_eq_some_iff.mp hact
    refine .inl ⟨rfl, fun blockno harea => ?_⟩
    change remember machine.stored action blockno = _
    generalize machine.stage proc = before at hfollows
    cases hfollows with
    | roams hspares =>
      cases action with
      | store buf block =>
        refine update_of_ne ?_ _ _
        rintro rfl
        exact of_decide_eq_true hspares harea
      | restore => cases hspares
      | _ => rfl
    | _ => rfl

theorem isolated_step (hlayout : Layout sb) (htidy : Tidy sb machine)
    (hstep : machine.step sb action = some next) : Isolated sb machine action next := by
  have hstored := stored_of_step hlayout htidy hstep
  refine ⟨?_, ?_, ?_, ?_⟩
  · intro inum hinum hnot index hindex
    rcases hstored with ⟨-, hsame⟩ | ⟨task, other, hwritten, hsame⟩
    · rw [recordByte, hsame _ (inodeArea_blockOf hlayout hinum), recordByte]
    · rw [hsame]
      refine recordByte_setRecord hlayout (htidy.written hwritten).2.1 hinum ?_ hindex
      rintro rfl
      exact hnot task hwritten
  · intro hwrites blockno houtside
    rcases hstored with ⟨hnone, -⟩ | ⟨task, inum, hwritten, hsame⟩
    · exact absurd hnone hwrites
    · rw [hsame, setRecord, update_of_ne]
      rintro rfl
      exact houtside (inodeArea_blockOf hlayout (htidy.written hwritten).2.1)
  · intro itype inum hwritten
    obtain ⟨hfits, hinum, hempty⟩ := htidy.written hwritten
    exact ⟨hfits.2, hinum, hempty itype rfl⟩
  · intro itype inum hreturned
    obtain ⟨buf, rfl, hstage⟩ := returned_eq_some hreturned
    have hfits := htidy.fits buf.proc
    rw [hstage] at hfits
    exact ⟨hfits.1.2, hfits.2.1.1, hfits.2.2⟩

structure Taken (sb : SuperBlock) (inum : ℕ) (machine : Machine Proc) : Prop where
  typed : (recordAt sb machine.stored inum).itype ≠ .empty
  settled : ∀ proc itype, machine.stage proc ≠ .wrote (.alloc itype) inum

/-- A process comes to have written a record by writing it. -/
theorem wrote_of_step (hstep : machine.step sb action = some next) {proc : Proc} {task : Task}
    {inum : ℕ} (hwrote : next.stage proc = .wrote task inum) :
    machine.stage proc = .wrote task inum ∨ machine.written action = some (task, inum) := by
  have hupdate : ∀ {agent : Proc} {stage : Stage}, update machine.stage agent stage proc =
      .wrote task inum → (agent = proc ∧ stage = .wrote task inum) ∨
        machine.stage proc = .wrote task inum := by
    intro agent stage hwrote
    by_cases hagent : proc = agent
    · rw [hagent, update_self] at hwrote
      exact .inl ⟨hagent.symm, hwrote⟩
    · rw [update_of_ne hagent] at hwrote
      exact .inr hwrote
  cases Machine.step_moves hstep with
  | starts | fails | finds | passes =>
    rcases hupdate hwrote with ⟨-, hstage⟩ | hbefore
    · cases hstage
    · exact .inl hbefore
  | edits hwrites hmatches hact =>
    obtain ⟨cache, -, rfl⟩ := Option.map_eq_some_iff.mp hact
    rcases hupdate hwrote with ⟨-, hstage⟩ | hbefore
    · cases hstage
      exact .inr hwrites
    · exact .inl hbefore
  | acts hagent hfollows hact =>
    obtain ⟨cache, -, rfl⟩ := Option.map_eq_some_iff.mp hact
    rcases hupdate hwrote with ⟨rfl, hstage⟩ | hbefore
    · subst hstage
      generalize machine.stage _ = before at hfollows
      cases hfollows with
      | logs | pins => exact .inl rfl
    · exact .inl hbefore

theorem taken_of_returned (htidy : Tidy sb machine) {itype : InodeType} {inum : ℕ}
    (hreturned : machine.returned action = some (itype, inum))
    (hstep : machine.step sb action = some next) : Taken sb inum next := by
  obtain ⟨buf, rfl, hstage⟩ := returned_eq_some hreturned
  have hfits := htidy.fits buf.proc
  rw [hstage] at hfits
  obtain ⟨hfits, ⟨-, mine, hmine, hproc, hmatches, hholds⟩, hrecord⟩ := hfits
  have hmoves := Machine.step_moves hstep
  cases hmoves with
  | acts hagent hfollows hact =>
    obtain rfl := Option.some.inj hagent
    rw [hstage] at hfollows
    obtain ⟨cache, -, rfl⟩ := Option.map_eq_some_iff.mp hact
    cases hfollows with
    | leaves =>
      refine ⟨?_, fun other jtype hwrote => ?_⟩
      · change (recordAt sb machine.stored inum).itype ≠ .empty
        rw [hrecord]
        exact hfits.1
      · change update machine.stage buf.proc .leaving other = _ at hwrote
        by_cases hother : other = buf.proc
        · rw [hother, update_self] at hwrote
          cases hwrote
        · -- two holders of the block would be one
          rw [update_of_ne hother] at hwrote
          have hothers := htidy.fits other
          rw [hwrote] at hothers
          obtain ⟨-, ⟨-, theirs, htheirs, htheirproc, htheirmatch, htheirholds⟩, -⟩ := hothers
          have hsame := htidy.faithful.counted.holder_eq hmine htheirs hmatches.1 htheirmatch.1
            (htheirmatch.2.trans hmatches.2.symm) hholds htheirholds
          exact hother (htheirproc.symm.trans ((congrArg Handle.proc hsame).trans hproc))

theorem taken_step (hlayout : Layout sb) (htidy : Tidy sb machine) {inum : ℕ}
    (hinum : inum < sb.ninodes) (htaken : Taken sb inum machine)
    (hkept : machine.frees action inum = false)
    (hstep : machine.step sb action = some next) : Taken sb inum next := by
  have halloc : ∀ itype, machine.written action ≠ some (.alloc itype, inum) := fun itype hwritten =>
      htaken.typed ((htidy.written hwritten).2.2 itype rfl)
  refine ⟨?_, fun proc itype hwrote => ?_⟩
  · by_cases hwritten : ∃ task, machine.written action = some (task, inum)
    · obtain ⟨task, hwritten⟩ := hwritten
      rcases stored_of_step hlayout htidy hstep with ⟨hnone, -⟩ | ⟨task', other, hother, hsame⟩
      · cases hnone.symm.trans hwritten
      · cases hother.symm.trans hwritten
        rw [hsame, recordAt_setRecord_self]
        cases task with
        | alloc itype => exact absurd hwritten (halloc itype)
        | update dinode =>
          intro hempty
          rw [Machine.frees, hwritten] at hkept
          exact of_decide_eq_false hkept ⟨hempty, rfl⟩
    · have hothers := (isolated_step hlayout htidy hstep).others inum hinum
        fun task hsome => hwritten ⟨task, hsome⟩
      rw [recordAt_congr hothers]
      exact htaken.typed
  · rcases wrote_of_step hstep hwrote with hbefore | hwritten
    · exact htaken.settled proc itype hbefore
    · exact halloc itype hwritten

theorem exclusive_of_run (hlayout : Layout sb) {first : Machine Proc}
    (hrun : Run (Machine.step sb) first record last) (hfirst : Tidy sb first)
    (hcareful : ∀ entry ∈ record, Careful entry.1 entry.2) : Exclusive record := by
  intro before between after left right itype jtype inum hrecord hleft hright
  subst hrecord
  by_contra hnone
  push Not at hnone
  obtain ⟨start, hbefore, hrest⟩ := hrun.split
  have hstart := (hbefore.invariant (tidy_step hlayout) hfirst
    fun entry hentry => hcareful entry (by simp [hentry])).1
  cases hrest with
  | @step _ next _ action _ hstep hrest =>
    obtain ⟨middle, hbetween, hafter⟩ := hrest.split
    have hinum := ((isolated_step hlayout hstart hstep).returns itype inum hleft).2.1
    have hkeep : ∀ (machine : Machine Proc) action next, Tidy sb machine ∧ Taken sb inum machine →
        (Careful machine action ∧ machine.frees action inum = false) →
        machine.step sb action = some next → Tidy sb next ∧ Taken sb inum next :=
      fun _ _ _ hstate hkept hstep => ⟨tidy_step hlayout _ _ _ hstate.1 hkept.1 hstep,
        taken_step hlayout hstate.1 hinum hstate.2 hkept.2 hstep⟩
    have hmiddle := (hbetween.invariant hkeep
      ⟨tidy_step hlayout _ _ _ hstart (hcareful (start, action) (by simp)) hstep,
        taken_of_returned hstart hleft hstep⟩ fun entry hentry =>
          ⟨hcareful entry (by simp [hentry]), by simpa using hnone entry hentry⟩).1
    cases hafter with
    | step =>
      obtain ⟨buf, -, hstage⟩ := returned_eq_some hright
      exact hmiddle.2.settled buf.proc jtype hstage

/-- The log has been recovered and nobody is inside a call. -/
def Machine.boot (Proc : Type) (sb : SuperBlock) (dev : UInt32) (disk : UInt32 → Block) :
    Machine Proc where
  cache := BufContents.started Proc dev sb.logstart sb.nlog disk
  stored := disk
  stage := fun _ => .idle

theorem tidy_boot (hlayout : Layout sb) {dev : UInt32} (hdev : dev ≠ 0) (disk : UInt32 → Block) :
    Tidy sb (Machine.boot Proc sb dev disk) where
  faithful := BufContents.faithful_started hdev sb.logstart sb.nlog disk
  apart := by
    rintro blockno ⟨hstart, -⟩ ⟨-, hin⟩
    have hlog := hlayout.log_end
    change blockno.toNat < sb.logstart + sb.nlog at hin
    omega
  fits := fun _ => trivial

/-- In every run in which no pin is lost, the inode table is isolated and
holders of its blocks see what was stored. -/
theorem run_inodes_isolated (hlayout : Layout sb) {dev : UInt32} (hdev : dev ≠ 0)
    {disk : UInt32 → Block}
    (hrun : Run (Machine.step sb) (Machine.boot Proc sb dev disk) record last)
    (hcareful : ∀ entry ∈ record, Careful entry.1 entry.2) :
    (∀ entry ∈ record, ∀ next, entry.1.step sb entry.2 = some next →
      Isolated sb entry.1 entry.2 next) ∧ Exclusive record ∧
      Transparent last.stored last.cache := by
  have hboot : Tidy sb (Machine.boot Proc sb dev disk) := tidy_boot hlayout hdev disk
  obtain ⟨hlast, htidy⟩ := hrun.invariant (tidy_step hlayout) hboot hcareful
  exact ⟨fun entry hentry _ hstep => isolated_step hlayout (htidy entry hentry) hstep,
    exclusive_of_run hlayout hrun hboot hcareful, hlast.faithful.transparent⟩

end Machine

/-! ## Two processes -/

open BufPins (bufAt readActions dropActions)

/-- The process calls `alloc`, which takes inode 1 in block 32, up to the first
half of `pin`. -/
def allocActions (proc : ℕ) (slot : BufControl.Slot) : List (Action ℕ) :=
  [.cache (.beginOp proc), .call proc (.alloc .file) 1] ++
    (readActions proc slot 32).map .cache ++
    [.look (bufAt proc slot 32 .loaded), .edit (bufAt proc slot 32 .loaded),
      .cache (.logWrite (bufAt proc slot 32 .dirty))]

/-- A second process passes inode 1 and takes inode 2. -/
def sampleActions : List (Action ℕ) :=
  allocActions 0 29 ++ [.cache (.pin (bufAt 0 29 32 (.pinning 1)))] ++
    (dropActions 0 29 32 .dropping).map .cache ++
    [.cache (.beginOp 1), .call 1 (.alloc .directory) 1] ++
    (readActions 1 29 32).map .cache ++ [.look (bufAt 1 29 32 .loaded)] ++
    (dropActions 1 29 32 .loaded ++ readActions 1 29 32).map .cache ++
    [.look (bufAt 1 29 32 .loaded), .edit (bufAt 1 29 32 .loaded),
      .cache (.logWrite (bufAt 1 29 32 .dirty))] ++ (dropActions 1 29 32 .dropping).map .cache

def sampleMachine : Machine ℕ := .boot ℕ sampleSb 1 fun _ _ => 0

instance (machine : Machine ℕ) (action : Action ℕ) : Decidable (Careful machine action) :=
  inferInstanceAs (Decidable (OfCache _ machine action))

theorem run_inodes_isolated_sample :
    ∃ record last, Run (Machine.step sampleSb) sampleMachine record last ∧
      record.map Prod.snd = sampleActions ∧
      (∀ entry ∈ record, ∀ next, entry.1.step sampleSb entry.2 = some next →
        Isolated sampleSb entry.1 entry.2 next) ∧ Exclusive record ∧
      Transparent last.stored last.cache := by
  have hsome : (sampleActions.foldlM (guarded Careful (Machine.step sampleSb))
      sampleMachine).isSome = true := by decide +kernel
  obtain ⟨last, hlast⟩ := Option.isSome_iff_exists.mp hsome
  obtain ⟨record, hrun, hactions, hcareful⟩ := Run.of_foldlM_admitted hlast
  exact ⟨record, last, hrun, hactions,
    run_inodes_isolated layout_sampleSb (by decide) hrun hcareful⟩

/-- Process 1 refers to the block while process 0 is pinning it. -/
def raceActions : List (Action ℕ) :=
  allocActions 0 29 ++ [.cache (.get 1 1 32), .cache (.pin (bufAt 0 29 32 (.pinning 1)))]

/-- With the pin lost, thirty processes that refer to other blocks take over the
slot, and one of them lets go of its block. -/
def evictActions : List (BufCache.Action ℕ) :=
  [.release (bufAt 0 29 32 .leaving), .lock (bufAt 1 29 32 .waiting),
      .load (bufAt 1 29 32 .locked)] ++ dropActions 1 29 32 .loaded ++
    (List.range 30).map (fun index => .get (2 + index) 1 (100 + UInt32.ofNat index)) ++
    [.lock (bufAt 2 28 100 .waiting), .load (bufAt 2 28 100 .locked)] ++
    dropActions 2 28 100 .loaded

/-- The process returns from `alloc`. -/
def returnAction (proc : ℕ) (slot : BufControl.Slot) : Action ℕ :=
  .cache (.unlock (bufAt proc slot 32 .dropping))

/-- A lost pin lets two processes return with the same number. -/
theorem exists_run_twice : ∃ record last,
    Run (Machine.step sampleSb) sampleMachine record last ∧
      (∀ entry ∈ record, OfCache Homely entry.1 entry.2) ∧ ¬Exclusive record := by
  let step := guarded (fun (machine : Machine ℕ) action =>
    OfCache Homely machine action ∧ machine.frees action 1 = false) (Machine.step sampleSb)
  have hruns : ((raceActions.foldlM step sampleMachine).any fun first =>
      first.returned (returnAction 0 29) = some (.file, 1) &&
        ((returnAction 0 29 :: (evictActions.map .cache ++ allocActions 1 28)).foldlM
          step first).any fun second =>
            second.returned (returnAction 1 28) = some (.file, 1) &&
              ([returnAction 1 28].foldlM step second).isSome) = true := by decide +kernel
  obtain ⟨first, hfirst, hruns⟩ := (Option.any_eq_true _ _).mp hruns
  obtain ⟨hleft, hruns⟩ := Bool.and_eq_true_iff.mp hruns
  obtain ⟨second, hsecond, hruns⟩ := (Option.any_eq_true _ _).mp hruns
  obtain ⟨hright, hruns⟩ := Bool.and_eq_true_iff.mp hruns
  obtain ⟨third, hthird⟩ := Option.isSome_iff_exists.mp hruns
  obtain ⟨before, hbefore, -, hadmitted⟩ := Run.of_foldlM_admitted hfirst
  obtain ⟨between, hbetween, hactions, hkept⟩ := Run.of_foldlM_admitted hsecond
  obtain ⟨after, hafter, hreturn, hlast⟩ := Run.of_foldlM_admitted hthird
  refine ⟨before ++ (between ++ after), third, hbefore.append (hbetween.append hafter), ?_, ?_⟩
  · simp only [List.forall_mem_append]
    exact ⟨fun entry hentry => (hadmitted entry hentry).1,
      fun entry hentry => (hkept entry hentry).1, fun entry hentry => (hlast entry hentry).1⟩
  · intro hexclusive
    cases hbetween with
    | done => cases hactions
    | @step _ _ _ action between hstep hrest =>
      cases hafter with
      | done => cases hreturn
      | @step _ _ _ action' after hstep' hrest' =>
        obtain rfl : action = returnAction 0 29 := (List.cons.inj hactions).1
        obtain rfl : action' = returnAction 1 28 := (List.cons.inj hreturn).1
        obtain ⟨entry, hentry, hfrees⟩ := hexclusive before between after _ _ .file .file 1 rfl
          (of_decide_eq_true hleft) (of_decide_eq_true hright)
        have hfalse := (hkept entry (List.mem_cons_of_mem _ hentry)).2
        exact Bool.false_ne_true (hfalse.symm.trans hfrees)

end RxOs.InodeTable
