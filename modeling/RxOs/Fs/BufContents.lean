import RxOs.Fs.BufPins
import RxOs.Fs.Buffers

/-!
# What a buffer shows

A block outside the log area is seen through the cache as it was last stored by
a holder of its buffer.  In between, its contents may be in the cache only, in
the log and the cache, or at home on disk: a slot that shows a block other than
the disk does is pinned until the block has been installed.
-/

namespace RxOs.BufContents

open Function Params LogState Transition LogMachine BufCache BufCounts
open BufPins (bufAt readActions dropActions changeActions commitActions)
open BufControl (BufLru Slot)
open Buffers (BufferedDisk)
open BufControl.BufLru (findCached_eq_some findCached_eq_none recycle_eq_some moveIfNoRef_eq_some)

variable {Proc : Type*}

/-- The phases after the return of `BCache::read`, with the lock held. -/
def hasRead : Phase → Bool
  | .loaded | .dirty | .pinning _ | .unpinning _ | .dropping => true
  | .waiting | .locked | .leaving => false

/-- The phases in which the buffer may have been changed and is not logged. -/
def changed : Phase → Bool
  | .dirty | .pinning _ => true
  | .waiting | .locked | .loaded | .unpinning _ | .dropping | .leaving => false

def saved : Progress → ℕ
  | .installing count => count
  | .installed count => count + 1
  | .recovering | .logging _ | .clearing | .done => 0

def marked : Progress → Bool
  | .installing _ | .installed _ | .clearing => true
  | .recovering | .logging _ | .done => false

/-- How many blocks of a header of length `len` are in the log area. -/
def copies (len : ℕ) : Progress → ℕ
  | .logging count => count
  | .installing _ | .installed _ => len
  | .recovering | .clearing | .done => 0

theorem saved_copies_of_atRest {progress : Progress} (hrest : progress.atRest = true) (len : ℕ) :
    saved progress = 0 ∧ copies len progress = 0 := by
  cases progress with
  | recovering | done => exact ⟨rfl, rfl⟩
  | _ => cases hrest

theorem not_lt_copies {progress : Progress} (hrest : progress.atRest = true)
    (index len : ℕ) : ¬index < copies len progress := by
  rw [(saved_copies_of_atRest hrest len).2]
  exact Nat.not_lt_zero index

theorem hasRead_of_usable {phase : Phase} (husable : phase.usable = true) :
    hasRead phase = true := by
  cases phase with
  | loaded | dirty => rfl
  | _ => cases husable

theorem hasRead_of_changed {phase : Phase}
    (hchanged : changed phase = true) : hasRead phase = true := by
  cases phase with
  | waiting | locked | leaving => cases hchanged
  | _ => rfl

def InLog (log : Log) (blockno : UInt32) : Prop :=
  log.start ≤ blockno.toNat ∧ blockno.toNat < log.start + log.size

instance (log : Log) (blockno : UInt32) : Decidable (InLog log blockno) :=
  inferInstanceAs (Decidable (_ ∧ _))

/-- The logged blocks that have not been written to their homes yet. -/
def uninstalled (cache : Cache Proc) : List UInt32 :=
  cache.logged.drop (saved cache.progress)

/-- The home of the block on disk may be out of date. -/
def Owed (cache : Cache Proc) (blockno : UInt32) : Prop :=
  blockno ∈ uninstalled cache ∨ ∃ handle ∈ cache.handles,
    handle.dev = cache.dev ∧ handle.blockno = blockno ∧ changed handle.phase = true

/-- What a slot has to show: the last contents stored, or for a block of the log
area what is on disk. -/
def expected (contents : UInt32 → Block) (cache : Cache Proc) (blockno : UInt32) : Block :=
  if InLog cache.machine.log blockno then cache.disk blockno
  else contents blockno

/-- Slots, log area and disk agree with the last contents stored. -/
structure Faithful (contents : UInt32 → Block) (cache : Cache Proc) :
    Prop where
  counted : Counted cache
  outside : ∀ blockno ∈ cache.logged, ¬InLog cache.machine.log blockno
  room : 0 < cache.machine.log.lh.len → cache.machine.log.lh.len + 1 < cache.machine.log.size
  size_pos : marked cache.progress = true → 0 < cache.machine.log.size
  pinning : ∀ handle ∈ cache.handles, handle.phase.pins = true →
    ¬InLog cache.machine.log handle.blockno
  loaded : ∀ handle ∈ cache.handles, hasRead handle.phase = true → cache.valid handle.index = true
  kept : ∀ slot, cache.lru.dev slot = cache.dev →
    cache.lru.blockno slot ∈ cache.pinned → cache.valid slot = true
  data_eq : ∀ slot, cache.valid slot = true → cache.lru.dev slot = cache.dev →
      cache.data slot = expected contents cache (cache.lru.blockno slot)
  disk_eq : ∀ blockno, ¬InLog cache.machine.log blockno →
    ¬Owed cache blockno → cache.disk blockno = contents blockno
  copied : ∀ index < copies cache.machine.log.lh.len cache.progress,
    ∀ copy home : UInt32, copy.toNat = cache.machine.log.start + (index + 1) →
      cache.logged[index]? = some home → cache.disk copy = contents home

theorem faithful_boot {dev : UInt32} (hdev : dev ≠ 0) (start size : ℕ) (disk : UInt32 → Block) :
    Faithful disk (Cache.boot Proc dev start size disk) where
  counted := counted_boot hdev start size disk
  outside := nofun
  room := nofun
  size_pos := nofun
  pinning := fun _ hmem => absurd hmem (Multiset.notMem_zero _)
  loaded := fun _ hmem => absurd hmem (Multiset.notMem_zero _)
  kept := nofun
  data_eq := nofun
  disk_eq := fun _ _ _ => rfl
  copied := nofun

/-- Slots show the same blocks with the same contents, and the disk and the log
area are the same. -/
structure SameStore (cache next : Cache Proc) : Prop where
  dev_eq : next.dev = cache.dev
  lru_dev_eq : next.lru.dev = cache.lru.dev
  blockno_eq : next.lru.blockno = cache.lru.blockno
  valid_eq : next.valid = cache.valid
  data_eq : next.data = cache.data
  disk_eq : next.disk = cache.disk
  start_eq : next.machine.log.start = cache.machine.log.start
  size_eq : next.machine.log.size = cache.machine.log.size

namespace Faithful

variable {contents : UInt32 → Block} {cache next : Cache Proc}
variable {buf : Handle Proc}

theorem inLog_iff (hsame : SameStore cache next) (blockno : UInt32) :
    InLog next.machine.log blockno ↔ InLog cache.machine.log blockno := by
  rw [InLog, hsame.start_eq, hsame.size_eq, InLog]

/-- A step that moves no contents. -/
theorem carry (hfaithful : Faithful contents cache) (hcounted : Counted next)
    (hsame : SameStore cache next)
    (houtside : ∀ blockno ∈ next.logged, ¬InLog cache.machine.log blockno)
    (hroom : 0 < next.machine.log.lh.len →
      next.machine.log.lh.len + 1 < cache.machine.log.size)
    (hmarked : marked next.progress = true → 0 < cache.machine.log.size)
    (hpinning : ∀ handle ∈ next.handles, handle.phase.pins = true →
      ¬InLog cache.machine.log handle.blockno)
    (hloaded : ∀ handle ∈ next.handles, hasRead handle.phase = true →
      cache.valid handle.index = true) (hkept : ∀ slot, cache.lru.dev slot = cache.dev →
      cache.lru.blockno slot ∈ next.pinned → cache.valid slot = true)
    (howed : ∀ blockno, Owed cache blockno → Owed next blockno)
    (hcopied : ∀ index < copies next.machine.log.lh.len next.progress, ∀ copy home : UInt32,
        copy.toNat = cache.machine.log.start + (index + 1) →
        next.logged[index]? = some home → cache.disk copy = contents home) :
    Faithful contents next where
  counted := hcounted
  outside := by
    intro blockno hblockno
    rw [inLog_iff hsame]
    exact houtside blockno hblockno
  room := by
    rw [hsame.size_eq]
    exact hroom
  size_pos := by
    rw [hsame.size_eq]
    exact hmarked
  pinning := by
    intro handle hmem hpins
    rw [inLog_iff hsame]
    exact hpinning handle hmem hpins
  loaded := by
    rw [hsame.valid_eq]
    exact hloaded
  kept := by
    rw [hsame.lru_dev_eq, hsame.dev_eq, hsame.blockno_eq, hsame.valid_eq]
    exact hkept
  data_eq := by
    intro slot hvalid hdev
    rw [hsame.valid_eq] at hvalid
    rw [hsame.lru_dev_eq, hsame.dev_eq] at hdev
    rw [hsame.data_eq, hsame.blockno_eq, hfaithful.data_eq slot hvalid hdev]
    simp only [expected, inLog_iff hsame, hsame.disk_eq]
  disk_eq := by
    intro blockno hout hnot
    rw [inLog_iff hsame] at hout
    rw [hsame.disk_eq]
    exact hfaithful.disk_eq blockno hout fun howes => hnot (howed blockno howes)
  copied := by
    rw [hsame.start_eq, hsame.disk_eq]
    exact hcopied

/-- Only buffers come, go or enter another phase. -/
theorem moveHandles (hfaithful : Faithful contents cache)
    (hcounted : Counted next) (hsame : SameStore cache next)
    (hmachine : next.machine = cache.machine) (hprogress : next.progress = cache.progress)
    (hpinning : ∀ handle ∈ next.handles, handle.phase.pins = true →
      ¬InLog cache.machine.log handle.blockno)
    (hloaded : ∀ handle ∈ next.handles, hasRead handle.phase = true →
      cache.valid handle.index = true) (howed : ∀ handle ∈ cache.handles, handle.dev = cache.dev →
      changed handle.phase = true → Owed next handle.blockno) : Faithful contents next := by
  obtain ⟨hlogged, hpinned⟩ := Cache.logged_congr hmachine hprogress
  refine hfaithful.carry hcounted hsame ?_ ?_ ?_ hpinning hloaded ?_ ?_ ?_
  · rw [hlogged]
    exact hfaithful.outside
  · rw [hmachine]
    exact hfaithful.room
  · rw [hprogress]
    exact hfaithful.size_pos
  · rw [hpinned]
    exact hfaithful.kept
  · rintro blockno (hblockno | ⟨handle, hmem, hdev, rfl, hchanged⟩)
    · left
      rwa [uninstalled, hlogged, hprogress]
    · exact howed handle hmem hdev hchanged
  · rw [hmachine, hprogress, hlogged]
    exact hfaithful.copied

/-- A property of all buffers is kept when one of them enters another phase and
has the property there. -/
theorem forall_enter [DecidableEq Proc] {property : Handle Proc → Prop} {phase : Phase}
    (hall : ∀ handle ∈ cache.handles, property handle)
    (hentered : property { buf with phase := phase }) :
    ∀ handle ∈ { buf with phase := phase } ::ₘ cache.handles.erase buf, property handle :=
  Multiset.forall_mem_cons.mpr ⟨hentered, fun handle hmem =>
    hall handle (Multiset.mem_of_mem_erase hmem)⟩

/-- The other buffers owe what they did. -/
theorem owed_other [DecidableEq Proc] {phase : Phase} {handle : Handle Proc}
    (hhandles : next.handles = { buf with phase := phase } ::ₘ cache.handles.erase buf)
    (hsamedev : next.dev = cache.dev) (hne : handle ≠ buf)
    (hmem : handle ∈ cache.handles) (hdev : handle.dev = cache.dev)
    (hchanged : changed handle.phase = true) : Owed next handle.blockno := by
  refine .inr ⟨handle, ?_, hdev.trans hsamedev.symm, rfl, hchanged⟩
  rw [hhandles]
  exact Multiset.mem_cons_of_mem ((Multiset.mem_erase_of_ne hne).mpr hmem)

/-- A buffer enters another phase. -/
theorem pass [DecidableEq Proc] (hfaithful : Faithful contents cache) {phase : Phase}
    (hcounted : Counted next) (hsame : SameStore cache next)
    (hmachine : next.machine = cache.machine) (hprogress : next.progress = cache.progress)
    (hhandles : next.handles = { buf with phase := phase } ::ₘ cache.handles.erase buf)
    (hpins : phase.pins = true → ¬InLog cache.machine.log buf.blockno)
    (hread : hasRead phase = true → cache.valid buf.index = true)
    (hchanged : changed buf.phase = true → changed phase = true ∨ buf.blockno ∈ uninstalled cache) :
    Faithful contents next := by
  refine hfaithful.moveHandles hcounted hsame hmachine hprogress ?_ ?_ ?_
  · rw [hhandles]
    exact forall_enter hfaithful.pinning hpins
  · rw [hhandles]
    exact forall_enter hfaithful.loaded hread
  · intro handle hmem hdev hhandle
    by_cases heq : handle = buf
    · subst heq
      rcases hchanged hhandle with hphase | howes
      · refine .inr ⟨{ handle with phase := phase }, ?_, hdev.trans hsame.dev_eq.symm, rfl, hphase⟩
        rw [hhandles]
        exact Multiset.mem_cons_self _ _
      · left
        rwa [uninstalled, Cache.logged, hmachine, hprogress]
    · exact owed_other hhandles hsame.dev_eq heq hmem hdev hhandle

/-- A buffer that has not been changed enters another phase. -/
theorem enter [DecidableEq Proc] (hfaithful : Faithful contents cache)
    {phase : Phase} {locked : Slot → Bool}
    (hcounted : Counted ({ cache with locked }.enter buf phase))
    (hread : hasRead phase = true → cache.valid buf.index = true)
    (hpins : phase.pins = true → ¬InLog cache.machine.log buf.blockno)
    (hchanged : changed buf.phase = true → changed phase = true ∨ buf.blockno ∈ uninstalled cache) :
    Faithful contents ({ cache with locked }.enter buf phase) :=
  hfaithful.pass hcounted ⟨rfl, rfl, rfl, rfl, rfl, rfl, rfl, rfl⟩ rfl rfl rfl hpins hread hchanged

/-- The slot of a buffer of the device stands for the buffer's block, and no
other slot does. -/
theorem slot_iff (hcounted : Counted cache) (hmem : buf ∈ cache.handles)
    (hdev : buf.dev = cache.dev) {slot : Slot} (hslot : cache.lru.dev slot = cache.dev) :
    cache.lru.blockno slot = buf.blockno ↔ slot = buf.index := by
  obtain ⟨hkeydev, hkeyblockno⟩ := hcounted.attached buf hmem
  constructor
  · intro heq
    exact hcounted.slot_eq hslot (hkeydev.trans hdev) (heq.trans hkeyblockno.symm)
  · rintro rfl
    exact hkeyblockno

/-- The holder of a buffer puts contents into the slot and onto the disk that
are the last ones stored, unless the block belongs to the log area. -/
theorem flush (hfaithful : Faithful contents cache) {block : Block}
    {progress : Progress} {contents' : UInt32 → Block}
    (hmem : buf ∈ cache.handles) (hdev : buf.dev = cache.dev) (hnext : next =
      { (cache.setData buf block).write buf with progress := progress }) (hcounted : Counted next)
    (hblock : ¬InLog cache.machine.log buf.blockno → contents' buf.blockno = block)
    (hcontents : ∀ blockno ≠ buf.blockno, contents' blockno = contents blockno)
    (hmarked : marked progress = true → 0 < cache.machine.log.size)
    (hunpinned : progress.unpinned = cache.progress.unpinned)
    (hsaved : ∀ blockno ∈ uninstalled cache, blockno = buf.blockno ∨
      blockno ∈ cache.logged.drop (saved progress))
    (hcopied : ∀ index < copies cache.machine.log.lh.len progress, ∀ copy home : UInt32,
        copy.toNat = cache.machine.log.start + (index + 1) → cache.logged[index]? = some home →
          update cache.disk buf.blockno block copy = contents' home) : Faithful contents' next := by
  have hdisk : (cache.setData buf block).write buf =
      { cache with
        data := update cache.data buf.index block
        disk := update cache.disk buf.blockno block } := by simp [Cache.write, Cache.setData]
  rw [hdisk] at hnext
  subst hnext
  refine ⟨hcounted, hfaithful.outside, hfaithful.room, hmarked,
    hfaithful.pinning, hfaithful.loaded, ?_, ?_, ?_, hcopied⟩
  · intro slot hslot hpinned
    change cache.lru.blockno slot ∈ cache.logged.drop progress.unpinned at hpinned
    rw [hunpinned] at hpinned
    exact hfaithful.kept slot hslot hpinned
  · intro slot hvalid hslot
    change update cache.data buf.index block slot =
      if InLog cache.machine.log (cache.lru.blockno slot) then
        update cache.disk buf.blockno block (cache.lru.blockno slot)
      else contents' (cache.lru.blockno slot)
    have hiff := slot_iff hfaithful.counted hmem hdev hslot
    by_cases hself : slot = buf.index
    · rw [hiff.mpr hself, hself, update_self, update_self]
      split
      · rfl
      · next hout => exact (hblock hout).symm
    · have hne : cache.lru.blockno slot ≠ buf.blockno := fun heq => hself (hiff.mp heq)
      rw [update_of_ne hself, update_of_ne hne, hcontents _ hne]
      exact hfaithful.data_eq slot hvalid hslot
  · intro blockno hout hnot
    change update cache.disk buf.blockno block blockno = contents' blockno
    by_cases hself : blockno = buf.blockno
    · subst hself
      rw [update_self, hblock hout]
    · rw [update_of_ne hself, hcontents _ hself]
      refine hfaithful.disk_eq blockno hout ?_
      rintro (hlogged | hchanged)
      · rcases hsaved blockno hlogged with heq | hstill
        · exact hself heq
        · exact hnot (.inl hstill)
      · exact hnot (.inr hchanged)

/-- A holder changes its buffer. -/
theorem store [DecidableEq Proc] (hfaithful : Faithful contents cache) {block : Block}
    (hmem : buf ∈ cache.handles) (husable : buf.phase.usable = true)
    (hop : buf.proc ∈ cache.machine.ops) (hdev : buf.dev = cache.dev)
    (hout : ¬InLog cache.machine.log buf.blockno)
    (hnext : next = (cache.setData buf block).enter buf .dirty) (hcounted : Counted next) :
    Faithful (update contents buf.blockno block) next := by
  subst hnext
  have hrest := hfaithful.counted.atRest hop
  have hvalid := hfaithful.loaded buf hmem (hasRead_of_usable husable)
  refine ⟨hcounted, hfaithful.outside, hfaithful.room, hfaithful.size_pos,
    forall_enter hfaithful.pinning nofun,
    forall_enter hfaithful.loaded fun _ => hvalid, hfaithful.kept, ?_, ?_,
    fun index hindex => absurd hindex (not_lt_copies hrest index _)⟩
  · intro slot hslotvalid hslot
    change update cache.data buf.index block slot =
      if InLog cache.machine.log (cache.lru.blockno slot) then
        cache.disk (cache.lru.blockno slot)
      else update contents buf.blockno block (cache.lru.blockno slot)
    have hiff := slot_iff hfaithful.counted hmem hdev hslot
    by_cases hself : slot = buf.index
    · rw [hiff.mpr hself, hself, update_self, update_self, if_neg hout]
    · have hne : cache.lru.blockno slot ≠ buf.blockno := fun heq => hself (hiff.mp heq)
      rw [update_of_ne hself, update_of_ne hne]
      exact hfaithful.data_eq slot hslotvalid hslot
  · intro blockno hblockno hnot
    have hne : blockno ≠ buf.blockno := by
      rintro rfl
      exact hnot (.inr ⟨{ buf with phase := .dirty }, Multiset.mem_cons_self _ _, hdev, rfl, rfl⟩)
    rw [update_of_ne hne]
    refine hfaithful.disk_eq blockno hblockno ?_
    rintro (hlogged | ⟨handle, hhandle, hhdev, rfl, hchanged⟩)
    · exact hnot (.inl hlogged)
    · exact hnot (owed_other rfl rfl (fun heq => hne (heq ▸ rfl)) hhandle hhdev hchanged)

theorem mem_pinned_of_uninstalled {blockno : UInt32}
    (hmem : blockno ∈ uninstalled cache) : blockno ∈ cache.pinned := by
  refine List.drop_subset_drop_left _ ?_ hmem
  cases cache.progress with
  | installed count => exact Nat.le_succ count
  | _ => exact le_refl _

/-- A block whose slot is not filled is at home on disk. -/
theorem disk_of_not_valid (hfaithful : Faithful contents cache) {slot : Slot}
    (hslot : cache.lru.dev slot = cache.dev) (hvalid : cache.valid slot = false)
    (hout : ¬InLog cache.machine.log (cache.lru.blockno slot)) :
    cache.disk (cache.lru.blockno slot) = contents (cache.lru.blockno slot) := by
  refine hfaithful.disk_eq _ hout ?_
  rintro (hlogged | ⟨handle, hmem, hdev, hblockno, hchanged⟩)
  · have htrue := hfaithful.kept slot hslot (mem_pinned_of_uninstalled hlogged)
    rw [hvalid] at htrue
    cases htrue
  · have hindex : slot = handle.index :=
      (slot_iff hfaithful.counted hmem hdev hslot).mp hblockno.symm
    have htrue := hfaithful.loaded handle hmem (hasRead_of_changed hchanged)
    rw [← hindex, hvalid] at htrue
    cases htrue

/-- A slot is filled from disk. -/
theorem fill (hfaithful : Faithful contents cache) {slot : Slot}
    (hvalid : cache.valid slot = false) :
    Faithful contents { cache with
      data := update cache.data slot (cache.disk (cache.lru.blockno slot))
      valid := update cache.valid slot true } := by
  have hmore : ∀ other, cache.valid other = true → update cache.valid slot true other = true := by
    intro other hother
    by_cases hslot : other = slot
    · rw [hslot, update_self]
    · rwa [update_of_ne hslot]
  refine ⟨hfaithful.counted.refill _ _ _, hfaithful.outside, hfaithful.room,
    hfaithful.size_pos, hfaithful.pinning, ?_, ?_, ?_, hfaithful.disk_eq, hfaithful.copied⟩
  · intro handle hmem hread
    exact hmore _ (hfaithful.loaded handle hmem hread)
  · intro other hdev hpinned
    exact hmore _ (hfaithful.kept other hdev hpinned)
  · intro other hother hdev
    change update cache.data slot _ other = expected contents cache (cache.lru.blockno other)
    by_cases hslot : other = slot
    · rw [hslot, update_self, expected]
      rw [hslot] at hdev
      split
      · rfl
      · next hout => exact hfaithful.disk_of_not_valid hdev hvalid hout
    · change update cache.valid slot true other = true at hother
      rw [update_of_ne hslot] at hother ⊢
      exact hfaithful.data_eq other hother hdev

/-- The buffer is filled from disk if it has to be. -/
theorem load [DecidableEq Proc] (hfaithful : Faithful contents cache)
    (hmem : buf ∈ cache.handles) (hphase : buf.phase = .locked)
    (hcounted : Counted (cache.load buf)) : Faithful contents (cache.load buf) := by
  have hunchanged : ∀ property : Prop, changed buf.phase = true → property := by
    rw [hphase]
    nofun
  unfold Cache.load at hcounted ⊢
  split at hcounted
  · next hvalid =>
      rw [if_pos hvalid]
      exact hfaithful.enter hcounted (fun _ => hvalid) nofun (hunchanged _)
  · next hvalid =>
      rw [if_neg hvalid]
      have hfilled := hfaithful.fill (by simpa using hvalid)
      rw [(hfaithful.counted.attached buf hmem).2] at hfilled
      exact hfilled.enter hcounted (fun _ => update_self ..) nofun (hunchanged _)

/-- A buffer on a slot that stands for its block. -/
theorem hit (hfaithful : Faithful contents cache) {handle : Handle Proc} {lru : BufLru}
    (hnext : next = { cache with lru, handles := handle ::ₘ cache.handles })
    (hcounted : Counted next) (hphase : handle.phase = .waiting) (hlrudev : lru.dev = cache.lru.dev)
    (hblockno : lru.blockno = cache.lru.blockno) : Faithful contents next := by
  subst hnext
  refine hfaithful.moveHandles hcounted
    ⟨rfl, hlrudev, hblockno, rfl, rfl, rfl, rfl, rfl⟩ rfl rfl ?_ ?_ ?_
  · refine Multiset.forall_mem_cons.mpr ⟨?_, hfaithful.pinning⟩
    rw [hphase]
    nofun
  · refine Multiset.forall_mem_cons.mpr ⟨?_, hfaithful.loaded⟩
    rw [hphase]
    nofun
  · intro other hmem hdev hchanged
    exact .inr ⟨other, Multiset.mem_cons_of_mem hmem, hdev, rfl, hchanged⟩

/-- A slot that nobody refers to is taken over and has to be filled. -/
theorem miss (hfaithful : Faithful contents cache) {proc : Proc}
    {dev blockno : UInt32} {index : Slot} {lru : BufLru}
    (hfind : cache.lru.findCached dev blockno = none)
    (hrecycle : cache.lru.recycle dev blockno = some (index, lru))
    (hnext : next = { cache with
      lru
      valid := update cache.valid index false
      handles := ⟨proc, index, dev, blockno, .waiting⟩ ::ₘ cache.handles })
    (hcounted : Counted next) : Faithful contents next := by
  subst hnext
  obtain ⟨hzero, rfl⟩ := recycle_eq_some hfaithful.counted.complete hrecycle
  have hne : ∀ handle ∈ cache.handles, handle.index ≠ index := by
    rintro handle hmem rfl
    have hpos := Counted.users_pos hmem
    have hcount := hfaithful.counted.refcnt_eq handle.index
    omega
  refine ⟨hcounted, hfaithful.outside, hfaithful.room, hfaithful.size_pos,
    Multiset.forall_mem_cons.mpr ⟨nofun, hfaithful.pinning⟩,
    Multiset.forall_mem_cons.mpr ⟨nofun, ?_⟩, ?_, ?_, ?_, hfaithful.copied⟩
  · intro handle hmem hread
    change update cache.valid index false handle.index = true
    rw [update_of_ne (hne handle hmem)]
    exact hfaithful.loaded handle hmem hread
  · intro slot hdev hpinned
    change update cache.lru.dev index dev slot = cache.dev at hdev
    change update cache.lru.blockno index blockno slot ∈ cache.pinned at hpinned
    change update cache.valid index false slot = true
    by_cases hslot : slot = index
    · subst hslot
      rw [update_self] at hdev hpinned
      obtain ⟨old, hold, hblockno⟩ := hfaithful.counted.held _ hpinned
      exact absurd hblockno (findCached_eq_none hfaithful.counted.complete
        hfind old (hold.trans hdev.symm))
    · rw [update_of_ne hslot] at hdev hpinned ⊢
      exact hfaithful.kept slot hdev hpinned
  · intro slot hvalid hdev
    change update cache.valid index false slot = true at hvalid
    change update cache.lru.dev index dev slot = cache.dev at hdev
    change cache.data slot = expected contents cache (update cache.lru.blockno index blockno slot)
    by_cases hslot : slot = index
    · rw [hslot, update_self] at hvalid
      cases hvalid
    · rw [update_of_ne hslot] at hvalid hdev ⊢
      exact hfaithful.data_eq slot hvalid hdev
  · intro block hout hnot
    refine hfaithful.disk_eq block hout ?_
    rintro (hlogged | ⟨handle, hmem, hhandle⟩)
    · exact hnot (.inl hlogged)
    · exact hnot (.inr ⟨handle, Multiset.mem_cons_of_mem hmem, hhandle⟩)

/-- A buffer is given up. -/
theorem leave [DecidableEq Proc] (hfaithful : Faithful contents cache) {lru : BufLru}
    (hphase : buf.phase = .leaving) (hmove : cache.lru.moveIfNoRef buf.index = some lru)
    (hnext : next = { cache with lru, handles := cache.handles.erase buf })
    (hcounted : Counted next) : Faithful contents next := by
  subst hnext
  obtain ⟨-, -, hdev, hblockno, -⟩ := moveIfNoRef_eq_some hfaithful.counted.complete hmove
  refine hfaithful.moveHandles hcounted
    ⟨rfl, hdev, hblockno, rfl, rfl, rfl, rfl, rfl⟩ rfl rfl ?_ ?_ ?_
  · exact fun handle hmem => hfaithful.pinning handle (Multiset.mem_of_mem_erase hmem)
  · exact fun handle hmem => hfaithful.loaded handle (Multiset.mem_of_mem_erase hmem)
  · intro handle hmem hhandle hchanged
    have hne : handle ≠ buf := by
      rintro rfl
      rw [hphase] at hchanged
      cases hchanged
    exact .inr ⟨handle, (Multiset.mem_erase_of_ne hne).mpr hmem, hhandle, rfl, hchanged⟩

/-- The block enters the header and its slot is pinned. -/
theorem pin [DecidableEq Proc] (hfaithful : Faithful contents cache) {refcnt : ℕ}
    {machine : Machine Proc} (hmem : buf ∈ cache.handles) (hphase : buf.phase = .pinning refcnt)
    (hmoves : Moves cache.machine (.write buf.proc buf.blockno) machine)
    (hnext : next = { cache.enter buf .dropping with
      lru := cache.lru.setRefcnt buf.index (refcnt + 1), machine })
    (hcounted : Counted next) : Faithful contents next := by
  subst hnext
  have hpins : buf.phase.pins = true := by
    rw [hphase]
    rfl
  obtain ⟨hdev, hfresh⟩ := hfaithful.counted.pinning buf hmem hpins
  have hout := hfaithful.pinning buf hmem hpins
  have hvalid := hfaithful.loaded buf hmem (by rw [hphase]; rfl)
  cases hmoves with
  | @write _ _ log hop hlog =>
    have hrest := hfaithful.counted.atRest hop
    have hsaved := (saved_copies_of_atRest hrest 0).1
    obtain ⟨-, ⟨hthere, -⟩ | ⟨-, hlen, hsize, rfl⟩⟩ := Log.write_eq_ok hlog
    · exact absurd hthere hfresh
    · have hpush : (cache.machine.log.lh.push buf.blockno).logged = cache.logged ++ [buf.blockno] :=
        LogHeader.logged_push _ _ (by omega)
      refine hfaithful.carry hcounted ⟨rfl, rfl, rfl, rfl, rfl, rfl, rfl, rfl⟩ ?_ (fun _ => hsize)
        hfaithful.size_pos (forall_enter hfaithful.pinning nofun)
        (forall_enter hfaithful.loaded fun _ => hvalid) ?_ ?_
        fun index hindex => absurd hindex (not_lt_copies hrest index _)
      · intro blockno hblockno
        change blockno ∈ (cache.machine.log.lh.push _).logged at hblockno
        rw [hpush, List.mem_append, List.mem_singleton] at hblockno
        rcases hblockno with hblockno | rfl
        · exact hfaithful.outside blockno hblockno
        · exact hout
      · intro slot hslot hpinned
        change cache.lru.blockno slot ∈ List.drop cache.progress.unpinned
          (cache.machine.log.lh.push _).logged at hpinned
        rw [hpush, Progress.unpinned_of_atRest hrest, List.drop_zero,
          List.mem_append, List.mem_singleton] at hpinned
        rcases hpinned with hpinned | heq
        · refine hfaithful.kept slot hslot ?_
          rwa [Cache.pinned, Progress.unpinned_of_atRest hrest, List.drop_zero]
        · rw [(slot_iff hfaithful.counted hmem hdev hslot).mp heq]
          exact hvalid
      · have hnew : ∀ blockno ∈ cache.logged ++ [buf.blockno],
            blockno ∈ List.drop (saved cache.progress)
              (cache.machine.log.lh.push buf.blockno).logged := by
          rw [hpush, hsaved, List.drop_zero]
          exact fun _ => id
        rintro blockno (hlogged | ⟨handle, hhandle, hhdev, rfl, hchanged⟩)
        · left
          rw [uninstalled, hsaved, List.drop_zero] at hlogged
          exact hnew blockno (List.mem_append_left _ hlogged)
        · by_cases heq : handle = buf
          · left
            rw [heq]
            exact hnew _ (by simp)
          · exact owed_other rfl rfl heq hhandle hhdev hchanged

/-- The slot of an installed block is unpinned. -/
theorem unpin [DecidableEq Proc] (hfaithful : Faithful contents cache) {refcnt count : ℕ}
    (hprogress : cache.progress = .installed count)
    (hmem : buf ∈ cache.handles) (hphase : buf.phase = .unpinning refcnt)
    (hnext : next = { cache.enter buf .loaded with
      lru := cache.lru.setRefcnt buf.index (refcnt - 1)
      progress := .installing (count + 1) })
    (hcounted : Counted next) : Faithful contents next := by
  subst hnext
  have hvalid := hfaithful.loaded buf hmem (by rw [hphase]; rfl)
  refine hfaithful.carry hcounted ⟨rfl, rfl, rfl, rfl, rfl, rfl, rfl, rfl⟩
    hfaithful.outside hfaithful.room ?_ (forall_enter hfaithful.pinning nofun)
    (forall_enter hfaithful.loaded fun _ => hvalid) ?_ ?_ ?_
  · exact fun _ => hfaithful.size_pos (by rw [hprogress]; rfl)
  · intro slot hslot hpinned
    refine hfaithful.kept slot hslot ?_
    rw [Cache.pinned, hprogress]
    exact List.drop_subset_drop_left _ (Nat.le_succ count) hpinned
  · rintro blockno (hlogged | ⟨handle, hhandle, hhdev, rfl, hchanged⟩)
    · left
      rw [uninstalled, hprogress] at hlogged
      exact hlogged
    · have hne : handle ≠ buf := by
        rintro rfl
        rw [hphase] at hchanged
        cases hchanged
      exact owed_other rfl rfl hne hhandle hhdev hchanged
  · have hcopied := hfaithful.copied
    rw [hprogress] at hcopied
    exact hcopied

/-- The log and the commit move on, and the header stays. -/
theorem turn (hfaithful : Faithful contents cache) {machine : Machine Proc}
    {progress : Progress} (hnext : next = { cache with machine, progress })
    (hcounted : Counted next) (hlh : machine.log.lh = cache.machine.log.lh)
    (harea : machine.log.start = cache.machine.log.start ∧
      machine.log.size = cache.machine.log.size)
    (hmarked : marked progress = true → marked cache.progress = true)
    (hunpinned : progress.unpinned = cache.progress.unpinned)
    (hsaved : saved progress = saved cache.progress)
    (hcopies : copies cache.machine.log.lh.len progress ≤
      copies cache.machine.log.lh.len cache.progress) : Faithful contents next := by
  subst hnext
  refine hfaithful.carry hcounted ⟨rfl, rfl, rfl, rfl, rfl, rfl, harea.1, harea.2⟩ ?_ ?_
    (fun hset => hfaithful.size_pos (hmarked hset)) hfaithful.pinning hfaithful.loaded ?_ ?_ ?_
  · rw [Cache.logged, hlh]
    exact hfaithful.outside
  · rw [hlh]
    exact hfaithful.room
  · rw [Cache.pinned, Cache.logged, hlh, hunpinned]
    exact hfaithful.kept
  · rintro blockno (hlogged | hchanged)
    · left
      rwa [uninstalled, Cache.logged, hlh, hsaved]
    · exact .inr hchanged
  · rw [Cache.logged, hlh]
    exact fun index hindex => hfaithful.copied index (hindex.trans_le hcopies)

/-- The header is emptied when every block of it has been installed. -/
theorem commit [DecidableEq Proc] (hfaithful : Faithful contents cache) {proc : Proc}
    {machine : Machine Proc} {progress : Progress} (hnext : next = { cache with machine, progress })
    (hcounted : Counted next) (hmoves : Moves cache.machine (.commit proc) machine)
    (hlen : cache.machine.log.lh.len ≤ saved cache.progress)
    (hmarked : marked progress = true → 0 < cache.machine.log.size)
    (hcopies : copies 0 progress = 0) : Faithful contents next := by
  subst hnext
  have hinstalled : uninstalled cache = [] := by
    rw [uninstalled, List.drop_eq_nil_iff]
    exact (List.length_take_le _ _).trans hlen
  cases hmoves with
  | commit hstage =>
    refine hfaithful.carry hcounted ⟨rfl, rfl, rfl, rfl, rfl, rfl, rfl, rfl⟩ nofun nofun hmarked
      hfaithful.pinning hfaithful.loaded ?_ ?_ ?_
    · intro slot _ hpinned
      change _ ∈ List.drop progress.unpinned [] at hpinned
      rw [List.drop_nil] at hpinned
      cases hpinned
    · rintro blockno (hlogged | hchanged)
      · rw [hinstalled] at hlogged
        cases hlogged
      · exact .inr hchanged
    · intro index hindex
      change index < copies 0 progress at hindex
      rw [hcopies] at hindex
      exact absurd hindex (Nat.not_lt_zero _)

/-! ### The rounds of a commit -/

/-- The log blocks of a header lie in the log area. -/
theorem inLog_copy (hfaithful : Faithful contents cache) {index : ℕ} {copy home : UInt32}
    (hcopy : copy.toNat = cache.machine.log.start + (index + 1))
    (hhome : cache.logged[index]? = some home) :
    index < cache.machine.log.lh.len ∧ InLog cache.machine.log copy := by
  obtain ⟨hindex, -⟩ := List.getElem?_eq_some_iff.mp hhome
  have hlen : index < cache.machine.log.lh.len := hindex.trans_le (List.length_take_le _ _)
  have hroom := hfaithful.room (by omega)
  exact ⟨hlen, by omega, by omega⟩

theorem data_of_has (hfaithful : Faithful contents cache) {proc : Proc}
    (hbuf : cache.Has proc buf) : cache.data buf.index = expected contents cache buf.blockno := by
  obtain ⟨hmem, hphase, -, hdev⟩ := hbuf
  obtain ⟨hkeydev, hkeyblockno⟩ := hfaithful.counted.attached buf hmem
  rw [← hkeyblockno]
  exact hfaithful.data_eq _ (hfaithful.loaded buf hmem (by rw [hphase]; rfl)) (hkeydev.trans hdev)

theorem writeLog (hfaithful : Faithful contents cache) {cacheBuf logBuf : Handle Proc} {count : ℕ}
    (hprogress : cache.progress = .logging count) (hcache : cache.Has cacheBuf.proc cacheBuf)
    (hlog : cache.Has cacheBuf.proc logBuf) (hhome : cache.logged[count]? = some cacheBuf.blockno)
    (hblockno : logBuf.blockno.toNat = cache.machine.log.start + (count + 1)) (hnext : next =
      { (cache.setData logBuf (cache.data cacheBuf.index)).write logBuf with
        progress := .logging (count + 1) })
    (hcounted : Counted next) : Faithful contents next := by
  obtain ⟨hlen, hin⟩ := hfaithful.inLog_copy hblockno hhome
  have hout := hfaithful.outside cacheBuf.blockno (List.mem_of_getElem? hhome)
  have hdata : cache.data cacheBuf.index = contents cacheBuf.blockno := by
    rw [hfaithful.data_of_has hcache, expected, if_neg hout]
  refine hfaithful.flush hlog.1 hlog.2.2.2 hnext hcounted (absurd hin)
    (fun _ _ => rfl) nofun (by rw [hprogress]; rfl) ?_ ?_
  · intro blockno hmem
    rw [uninstalled, hprogress] at hmem
    exact .inr hmem
  · intro index hindex copy home hcopy hget
    by_cases hlast : index = count
    · subst hlast
      have hsame : copy = logBuf.blockno := UInt32.toNat_inj.mp (hcopy.trans hblockno.symm)
      rw [hhome, Option.some.injEq] at hget
      rw [hsame, update_self, hdata, hget]
    · have hne : copy ≠ logBuf.blockno := by
        rintro rfl
        omega
      change index < count + 1 at hindex
      rw [update_of_ne hne]
      refine hfaithful.copied index ?_ copy home hcopy hget
      rw [hprogress]
      change index < count
      omega

theorem writeHead (hfaithful : Faithful contents cache) {block : Block}
    {count : ℕ} (hprogress : cache.progress = .logging count) (hbuf : cache.Has buf.proc buf)
    (hcount : count = cache.machine.log.lh.len) (hpos : 0 < count)
    (hblockno : buf.blockno.toNat = cache.machine.log.start)
    (hnext : next = { (cache.setData buf block).write buf with
      progress := .installing 0 })
    (hcounted : Counted next) : Faithful contents next := by
  have hroom := hfaithful.room (by omega)
  have hin : InLog cache.machine.log buf.blockno := ⟨by omega, by omega⟩
  refine hfaithful.flush hbuf.1 hbuf.2.2.2 hnext hcounted (absurd hin)
    (fun _ _ => rfl) (fun _ => by omega) (by rw [hprogress]; rfl) ?_ ?_
  · intro blockno hmem
    rw [uninstalled, hprogress] at hmem
    exact .inr hmem
  · intro index hindex copy home hcopy hget
    have hne : copy ≠ buf.blockno := by
      rintro rfl
      omega
    rw [update_of_ne hne]
    refine hfaithful.copied index ?_ copy home hcopy hget
    rw [hprogress, hcount]
    exact hindex

theorem install (hfaithful : Faithful contents cache) {logBuf diskBuf : Handle Proc} {count : ℕ}
    (hprogress : cache.progress = .installing count) (hdisk : cache.Has diskBuf.proc diskBuf)
    (hlog : cache.Has diskBuf.proc logBuf) (hhome : cache.logged[count]? = some diskBuf.blockno)
    (hblockno : logBuf.blockno.toNat = cache.machine.log.start + (count + 1)) (hnext : next =
      { (cache.setData diskBuf (cache.data logBuf.index)).write diskBuf with
        progress := .installed count })
    (hcounted : Counted next) : Faithful contents next := by
  obtain ⟨hlen, hin⟩ := hfaithful.inLog_copy hblockno hhome
  have hcopies : ∀ index, index < cache.machine.log.lh.len →
      index < copies cache.machine.log.lh.len cache.progress := by
    rw [hprogress]
    exact fun _ => id
  have hdata : cache.data logBuf.index = contents diskBuf.blockno := by
    rw [hfaithful.data_of_has hlog, expected, if_pos hin]
    exact hfaithful.copied count (hcopies count hlen) _ _ hblockno hhome
  obtain ⟨hcount, hget⟩ := List.getElem?_eq_some_iff.mp hhome
  refine hfaithful.flush hdisk.1 hdisk.2.2.2 hnext hcounted (fun _ => hdata.symm) (fun _ _ => rfl)
    (fun _ => hfaithful.size_pos (by rw [hprogress]; rfl)) (by rw [hprogress]; rfl) ?_ ?_
  · intro blockno hmem
    rw [uninstalled, hprogress, saved, List.drop_eq_getElem_cons hcount, hget] at hmem
    exact List.mem_cons.mp hmem
  · intro index hindex copy home hcopy hgetcopy
    have hne : copy ≠ diskBuf.blockno := by
      rintro rfl
      exact hfaithful.outside _ (List.mem_of_getElem? hhome) (hfaithful.inLog_copy hcopy hgetcopy).2
    rw [update_of_ne hne]
    exact hfaithful.copied index (hcopies index hindex) copy home hcopy hgetcopy

theorem clearHead (hfaithful : Faithful contents cache) {block : Block}
    (hprogress : cache.progress = .clearing) (hbuf : cache.Has buf.proc buf)
    (hblockno : buf.blockno.toNat = cache.machine.log.start)
    (hnext : next = { (cache.setData buf block).write buf with
      progress := .done })
    (hcounted : Counted next) : Faithful contents next := by
  have hsize := hfaithful.size_pos (by rw [hprogress]; rfl)
  have hin : InLog cache.machine.log buf.blockno := ⟨by omega, by omega⟩
  refine hfaithful.flush hbuf.1 hbuf.2.2.2 hnext hcounted (absurd hin)
    (fun _ _ => rfl) nofun (by rw [hprogress]; rfl) ?_ nofun
  intro blockno hmem
  rw [uninstalled, hprogress] at hmem
  exact .inr hmem

end Faithful

/-! ## Steps and runs -/

/-- The last contents stored, after one more step.  What the recovery of the log
puts into a block counts as its initial contents. -/
def remember (contents : UInt32 → Block) :
    Action Proc → UInt32 → Block
  | .store buf block | .restore buf block => update contents buf.blockno block
  | _ => contents

/-- The contents last stored into each block in a run that began with the given
disk. -/
def lastStored (disk : UInt32 → Block)
    (record : List (Cache Proc × Action Proc)) : UInt32 → Block :=
  record.foldl (fun contents entry => remember contents entry.2) disk

/-- Processes change and log blocks of the log's device outside the log area. -/
def Homely (cache : Cache Proc) : Action Proc → Prop
  | .store buf _ | .logWrite buf => buf.dev = cache.dev ∧ ¬InLog cache.machine.log buf.blockno
  | _ => True

theorem onDevice_of_homely {cache : Cache Proc} {action : Action Proc}
    (hhomely : Homely cache action) : OnDevice cache action := by
  cases action with
  | logWrite buf => exact hhomely.1
  | _ => trivial

theorem faithful_step [DecidableEq Proc] (contents : UInt32 → Block) (cache : Cache Proc)
    (action : Action Proc) (next : Cache Proc) (hfaithful : Faithful contents cache)
    (hadmitted : Apart cache action ∧ Homely cache action) (hstep : cache.step action = some next) :
    Faithful (remember contents action) next := by
  have hcounted := counted_step cache action next hfaithful.counted
    ⟨hadmitted.1, onDevice_of_homely hadmitted.2⟩ hstep
  obtain ⟨-, hhomely⟩ := hadmitted
  cases Cache.step_effect hstep with
  | hit hfind =>
    obtain ⟨-, -, rfl⟩ := findCached_eq_some hfaithful.counted.complete hfind
    exact hfaithful.hit rfl hcounted rfl rfl rfl
  | miss hfind hrecycle => exact hfaithful.miss hfind hrecycle rfl hcounted
  | lock hmem hphase hfree =>
    refine hfaithful.enter hcounted nofun nofun ?_
    rw [hphase]
    nofun
  | load hmem hphase => exact hfaithful.load hmem hphase hcounted
  | store hmem hphase hop => exact hfaithful.store hmem hphase hop hhomely.1 hhomely.2 rfl hcounted
  | @absorb buf machine hmem hphase hmoves hlogged =>
    have hvalid := hfaithful.loaded buf hmem (hasRead_of_usable hphase)
    refine hfaithful.enter hcounted (fun _ => hvalid) nofun fun _ => .inr ?_
    cases hmoves with
    | write hop hlog =>
      have hrest := hfaithful.counted.atRest hop
      rwa [uninstalled, (saved_copies_of_atRest hrest 0).1, List.drop_zero]
  | @loadPin buf machine hmem hphase hmoves hlogged =>
    have hvalid := hfaithful.loaded buf hmem (hasRead_of_usable hphase)
    exact hfaithful.enter hcounted (fun _ => hvalid) (fun _ => hhomely.2) fun _ => .inl rfl
  | pin hmem hphase hmoves => exact hfaithful.pin hmem hphase hmoves rfl hcounted
  | unlock hmem hphase =>
    refine hfaithful.enter hcounted nofun nofun ?_
    rcases hphase with hphase | hphase <;> rw [hphase] <;> nofun
  | release hmem hphase hmove => exact hfaithful.leave hphase hmove rfl hcounted
  | beginOp hprogress hmoves | finish hprogress hmoves =>
    exact hfaithful.turn rfl hcounted (hmoves.lh_eq nofun nofun)
      hmoves.area_eq id rfl rfl (le_refl _)
  | @endOp proc machine hmoves =>
    have hrest : cache.progress.atRest = true := by
      cases hmoves with
      | endOp hstage hop hlog => exact hfaithful.counted.atRest hop
    refine hfaithful.turn rfl hcounted (hmoves.lh_eq nofun nofun) hmoves.area_eq ?_ ?_ ?_ ?_
    · split
      · nofun
      · exact id
    · split
      · exact (Progress.unpinned_of_atRest hrest).symm
      · rfl
    · split
      · exact (saved_copies_of_atRest hrest 0).1.symm
      · rfl
    · split
      · exact Nat.zero_le _
      · exact le_refl _
  | writeLog hprogress hcache hlog hreads hhome hblockno =>
    exact hfaithful.writeLog hprogress hcache hlog hhome hblockno rfl hcounted
  | writeHead hprogress hbuf hreads hcount hpos hblockno =>
    exact hfaithful.writeHead hprogress hbuf hcount hpos hblockno rfl hcounted
  | install hprogress hdisk hlog hreads hhome hblockno =>
    exact hfaithful.install hprogress hdisk hlog hhome hblockno rfl hcounted
  | @loadRefcnt diskBuf count hprogress hdisk =>
    have hvalid := hfaithful.loaded diskBuf hdisk.1 (by rw [hdisk.2.1]; rfl)
    refine hfaithful.enter hcounted (fun _ => hvalid) nofun ?_
    rw [hdisk.2.1]
    nofun
  | unpin hprogress hmem hphase hdev hreads hhome =>
    exact hfaithful.unpin hprogress hmem hphase rfl hcounted
  | emptyHead hprogress hmoves =>
    exact hfaithful.commit rfl hcounted hmoves (by rw [hprogress]; exact le_refl _)
      (fun _ => hfaithful.size_pos (by rw [hprogress]; rfl)) rfl
  | clearHead hprogress hbuf hempties hblockno =>
    exact hfaithful.clearHead hprogress hbuf hblockno rfl hcounted
  | skip hprogress hlen hmoves =>
    exact hfaithful.commit rfl hcounted hmoves (by rw [hlen]; exact Nat.zero_le _) nofun rfl
  | restore hprogress hbuf =>
    refine hfaithful.flush hbuf.1 hbuf.2.2.2 rfl hcounted
      (fun _ => update_self ..) (fun _ hne => update_of_ne hne ..)
      hfaithful.size_pos rfl (fun _ => .inr) ?_
    change ∀ index < copies _ cache.progress, _
    rw [hprogress]
    nofun
  | recovered hprogress =>
    refine hfaithful.turn rfl hcounted rfl ⟨rfl, rfl⟩ nofun ?_ ?_
      (Nat.zero_le _) <;> rw [hprogress] <;> rfl

/-- The cache once the log has been recovered. -/
def started (Proc : Type*) (dev : UInt32) (start size : ℕ) (disk : UInt32 → Block) : Cache Proc :=
  { Cache.boot Proc dev start size disk with progress := .done }

theorem faithful_started [DecidableEq Proc] {dev : UInt32} (hdev : dev ≠ 0) (start size : ℕ)
    (disk : UInt32 → Block) : Faithful disk (started Proc dev start size disk) :=
  faithful_step disk _ .recovered _ (faithful_boot hdev start size disk) ⟨trivial, trivial⟩ rfl

/-- What holders see: the contents last stored, in the only slot of the block,
and a logged block that is not at home on disk yet is in a slot that cannot be
recycled. -/
structure Transparent (contents : UInt32 → Block) (cache : Cache Proc) :
    Prop where
  seen : ∀ handle ∈ cache.handles, hasRead handle.phase = true →
    handle.dev = cache.dev → ¬InLog cache.machine.log handle.blockno →
      cache.data handle.index = contents handle.blockno
  distinct : ∀ left right, cache.lru.dev left ≠ 0 → cache.lru.dev left = cache.lru.dev right →
    cache.lru.blockno left = cache.lru.blockno right → left = right
  kept : ∀ blockno ∈ uninstalled cache, ∃ slot,
    cache.lru.dev slot = cache.dev ∧ cache.lru.blockno slot = blockno ∧
      cache.data slot = contents blockno ∧ 0 < cache.lru.refcnt slot

theorem Faithful.transparent {contents : UInt32 → Block} {cache : Cache Proc}
    (hfaithful : Faithful contents cache) : Transparent contents cache where
  seen := by
    intro handle hmem hread hdev hout
    obtain ⟨hkeydev, hkeyblockno⟩ := hfaithful.counted.attached handle hmem
    rw [hfaithful.data_eq handle.index (hfaithful.loaded handle hmem hread)
      (hkeydev.trans hdev), hkeyblockno, expected, if_neg hout]
  distinct := hfaithful.counted.distinct
  kept := by
    intro blockno hmem
    have hpinned := Faithful.mem_pinned_of_uninstalled hmem
    obtain ⟨slot, hdev, rfl⟩ := hfaithful.counted.held blockno hpinned
    have hout := hfaithful.outside _ (List.mem_of_mem_drop hmem)
    refine ⟨slot, hdev, rfl, ?_, ?_⟩
    · rw [hfaithful.data_eq slot (hfaithful.kept slot hdev hpinned) hdev, expected, if_neg hout]
    · have hshare : cache.share slot = 1 := if_pos ⟨hdev, hpinned⟩
      have hcount := hfaithful.counted.refcnt_eq slot
      omega

/-- In every run in which nobody else changes a reference count between the two
halves of a `pin` or `unpin`, and in which the processes change and log blocks
of the log's device outside the log area, the cache is transparent. -/
theorem run_transparent [DecidableEq Proc] {dev : UInt32} (hdev : dev ≠ 0) {start size : ℕ}
    {disk : UInt32 → Block} {last : Cache Proc} {record : List (Cache Proc × Action Proc)}
    (hrun : Run Cache.step (Cache.boot Proc dev start size disk) record last)
    (hadmitted : ∀ entry ∈ record, Apart entry.1 entry.2 ∧ Homely entry.1 entry.2) :
    Transparent (lastStored disk record) last :=
  (hrun.remembers faithful_step (faithful_boot hdev start size disk) hadmitted).transparent

instance (cache : Cache Proc) :
    (action : Action Proc) → Decidable (Homely cache action)
  | .store _ _ | .logWrite _ => inferInstanceAs (Decidable (_ ∧ ¬_))
  | .get _ _ _ | .release _ | .lock _ | .load _ | .pin _ | .unlock _
  | .beginOp _ | .endOp _ | .writeLog _ _ | .writeHead _ | .install _ _
  | .loadRefcnt _ | .unpin _ | .emptyHead _ | .clearHead _ | .skip _
  | .finish _ | .restore _ _ | .recovered => .isTrue trivial

/-- A block that was changed, logged and committed, and is read again. -/
theorem run_transparent_transaction : ∃ record last,
    Run Cache.step (Cache.boot ℕ 1 2 30 fun _ _ => 0) record last ∧
    bufAt 0 29 50 .loaded ∈ last.handles ∧ last.data 29 = lastStored (fun _ _ => 0) record 50 := by
  have hruns : ((changeActions (fun _ => 1) ++ commitActions ++ readActions 0 29 50).foldlM
      (guarded (fun cache action => Apart cache action ∧ Homely cache action) Cache.step)
      (Cache.boot ℕ 1 2 30 fun _ _ => 0)).any (fun cache =>
        bufAt 0 29 50 .loaded ∈ cache.handles ∧ cache.dev = 1 ∧
          ¬InLog cache.machine.log 50) = true := by decide +kernel
  obtain ⟨record, last, hrun, -, hadmitted, hmem, hdev, hout⟩ := Run.of_any_admitted hruns
  have htransparent := run_transparent (by decide) hrun hadmitted
  exact ⟨record, last, hrun, hmem, htransparent.seen _ hmem rfl hdev.symm hout⟩

/-- What a step does to the disk behind the cache, as the file system has it. -/
def buffered (bufs : BufferedDisk) : Action Proc → BufferedDisk
  | .store buf block | .restore buf block => bufs.modify buf.blockno.toNat block
  | _ => bufs

theorem remember_read (bufs : BufferedDisk) (action : Action Proc) :
    remember (bufs.read ·.toNat) action = ((buffered bufs action).read ·.toNat) := by
  cases action with
  | store buf block | restore buf block =>
    rw [buffered, bufs.read_modify]
    have hinjective : Injective UInt32.toNat := fun _ _ => UInt32.toNat_inj.mp
    exact (update_comp_eq_of_injective bufs.read hinjective buf.blockno block).symm
  | _ => rfl

/-- What a process has read is what the file system reads. -/
theorem transparent_read [DecidableEq Proc] {dev : UInt32} (hdev : dev ≠ 0) {start size : ℕ}
    {bufs : BufferedDisk} {last : Cache Proc} {record : List (Cache Proc × Action Proc)}
    (hrun : Run Cache.step (Cache.boot Proc dev start size (bufs.read ·.toNat)) record last)
    (hadmitted : ∀ entry ∈ record, Apart entry.1 entry.2 ∧ Homely entry.1 entry.2) :
    Transparent ((record.foldl (fun bufs entry => buffered bufs entry.2) bufs).read ·.toNat)
      last := by
  have hread : lastStored (bufs.read ·.toNat) record = _ :=
    List.foldl_hom (fun (bufs : BufferedDisk) (blockno : UInt32) => bufs.read blockno.toNat)
      fun bufs entry => remember_read bufs entry.2
  rw [← hread]
  exact (hrun.remembers faithful_step (faithful_boot hdev start size _) hadmitted).transparent

/-- Process 1 refers to block 50 while process 0 is pinning it. -/
def raceActions (block : Block) : List (Action ℕ) :=
  [[.recovered, .beginOp 0], readActions 0 29 50,
    [.store (bufAt 0 29 50 .loaded) block, .logWrite (bufAt 0 29 50 .dirty),
      .get 1 1 50, .pin (bufAt 0 29 50 (.pinning 1))], dropActions 0 29 50 .dropping,
    [.lock (bufAt 1 29 50 .waiting), .load (bufAt 1 29 50 .locked)], dropActions 1 29 50 .loaded,
    (List.range 30).map fun index => .get 1 1 (100 + UInt32.ofNat index),
    [.lock (bufAt 1 28 100 .waiting), .load (bufAt 1 28 100 .locked)],
    dropActions 1 28 100 .loaded, readActions 1 28 50].flatten

/-- Two processes that refer to a slot at the same time can lose the pin: the
block is evicted before it is installed, and the next reader gets the contents
from before the change. -/
theorem exists_run_stale : ∃ record last,
    Run Cache.step (Cache.boot ℕ 1 2 30 fun _ _ => 0) record last ∧
    (∀ entry ∈ record, Homely entry.1 entry.2) ∧
    ¬Transparent (lastStored (fun _ _ => 0) record) last := by
  have hruns : ((raceActions fun _ => 1).foldlM (guarded Homely Cache.step)
      (Cache.boot ℕ 1 2 30 fun _ _ => 0)).any (fun cache =>
        bufAt 1 28 50 .loaded ∈ cache.handles ∧ cache.dev = 1 ∧
          ¬InLog cache.machine.log 50 ∧ cache.data 28 ⟨0, by decide⟩ = 0) = true := by
    decide +kernel
  obtain ⟨record, last, hrun, hactions, hadmitted, hmem, hdev, hout, hdata⟩ :=
    Run.of_any_admitted hruns
  refine ⟨record, last, hrun, hadmitted, ?_⟩
  intro htransparent
  have hseen := htransparent.seen _ hmem rfl hdev.symm hout
  have hstored : lastStored (fun _ _ => 0) record 50 ⟨0, by decide⟩ = 1 := by
    rw [lastStored, ← List.foldl_map, hactions]
    decide +kernel
  have hbyte := congrFun hseen ⟨0, by decide⟩
  change last.data 28 _ = lastStored _ record 50 _ at hbyte
  rw [hdata, hstored] at hbyte
  cases hbyte

end RxOs.BufContents
