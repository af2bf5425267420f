import RxOs.Fs.BufCache

/-!
# Reference counts of the buffer cache

A slot is referred to by the buffers in use on it and by the log, which pins a
slot when its block enters the header and unpins it when the block has been
installed.  Every step keeps the counts in agreement with that, as long as
nobody else changes a reference count between the two halves of a `pin` or
`unpin` and only buffers of the log's device are logged.
-/

namespace RxOs.BufCounts

open Function Params LogState Transition LogMachine BufCache
open BufControl (BufLru Slot)
open BufControl.BufLru (findCached_eq_some findCached_eq_none recycle_eq_some moveIfNoRef_eq_some)

variable {Proc : Type*}

/-- Keys, counts and locks agree with the buffers in use and with the log. -/
structure Counted (cache : Cache Proc) : Prop where
  dev_ne : cache.dev ≠ 0
  complete : cache.lru.Complete
  distinct : ∀ left right, cache.lru.dev left ≠ 0 → cache.lru.dev left = cache.lru.dev right →
    cache.lru.blockno left = cache.lru.blockno right → left = right
  attached : ∀ handle ∈ cache.handles, cache.lru.dev handle.index = handle.dev ∧
      cache.lru.blockno handle.index = handle.blockno
  refcnt_eq : ∀ slot, cache.lru.refcnt slot = cache.users slot + cache.share slot
  held : ∀ blockno ∈ cache.pinned, ∃ slot,
    cache.lru.dev slot = cache.dev ∧ cache.lru.blockno slot = blockno
  locked_eq : ∀ slot, (cache.locked slot).toNat = cache.handles.countP fun handle =>
      handle.index = slot ∧ handle.phase.holds = true
  pending : ∀ handle ∈ cache.handles, ∀ refcnt, handle.phase.pending = some refcnt →
      cache.lru.refcnt handle.index = refcnt
  pinning : ∀ handle ∈ cache.handles, handle.phase.pins = true →
    handle.dev = cache.dev ∧ handle.blockno ∉ cache.logged
  coherent : Coherent cache.machine
  rest : cache.machine.log.commiting = false → cache.progress.atRest = true

theorem counted_boot {dev : UInt32} (hdev : dev ≠ 0) (start size : ℕ) (disk : UInt32 → Block) :
    Counted (Cache.boot Proc dev start size disk) where
  dev_ne := hdev
  complete := BufLru.complete_new
  distinct := fun _ _ hleft => absurd rfl hleft
  attached := fun _ hmem => absurd hmem (Multiset.notMem_zero _)
  refcnt_eq := by
    intro slot
    have hshare : (Cache.boot Proc dev start size disk).share slot = 0 :=
      if_neg fun hkey => hdev hkey.1.symm
    rw [hshare]
    rfl
  held := nofun
  locked_eq := fun _ => rfl
  pending := fun _ hmem => absurd hmem (Multiset.notMem_zero _)
  pinning := fun _ hmem => absurd hmem (Multiset.notMem_zero _)
  coherent := coherent_initial start size
  rest := fun _ => rfl

theorem update_add_one (count : Slot → ℕ) (index slot : Slot) :
    update count index (count index + 1) slot = count slot + if index = slot then 1 else 0 := by
  by_cases hslot : index = slot
  · subst hslot
    rw [update_self, if_pos rfl]
  · rw [update_of_ne (Ne.symm hslot), if_neg hslot, Nat.add_zero]

theorem update_sub_one {count : Slot → ℕ} {index : Slot} (hpos : 0 < count index) (slot : Slot) :
    update count index (count index - 1) slot + (if index = slot then 1 else 0) = count slot := by
  have hback := update_add_one (update count index (count index - 1)) index slot
  rw [update_self, update_idem, Nat.sub_add_cancel hpos, update_eq_self] at hback
  exact hback.symm

theorem pinned_eq_cons {cache : Cache Proc} {count : ℕ}
    {blockno : UInt32} (hprogress : cache.progress = .installed count)
    (hhome : cache.logged[count]? = some blockno) :
    cache.pinned = blockno :: cache.logged.drop (count + 1) := by
  obtain ⟨hcount, hget⟩ := List.getElem?_eq_some_iff.mp hhome
  rw [Cache.pinned, hprogress, Progress.unpinned, List.drop_eq_getElem_cons hcount, hget]

theorem mem_pinned {cache : Cache Proc} {count : ℕ} {blockno : UInt32}
    (hprogress : cache.progress = .installed count) (hhome : cache.logged[count]? = some blockno) :
    blockno ∈ cache.pinned := by
  rw [pinned_eq_cons hprogress hhome]
  exact List.mem_cons_self

namespace Counted

variable {cache next : Cache Proc} {buf other : Handle Proc}

theorem users_pos (hmem : buf ∈ cache.handles) : 0 < cache.users buf.index :=
  Multiset.countP_pos_of_mem hmem rfl

/-- The holder of a sleep lock is alone on it. -/
theorem alone [DecidableEq Proc] (hcounted : Counted cache) (hmem : buf ∈ cache.handles)
    (hholds : buf.phase.holds = true) (hother : other ∈ cache.handles.erase buf)
    (hindex : other.index = buf.index) : other.phase.holds = false := by
  have hcount := hcounted.locked_eq buf.index
  rw [← Multiset.cons_erase hmem, Multiset.countP_cons, if_pos ⟨rfl, hholds⟩] at hcount
  have hle := Bool.toNat_le (cache.locked buf.index)
  by_contra hother'
  have hpos : 0 < (cache.handles.erase buf).countP fun handle =>
      handle.index = buf.index ∧ handle.phase.holds = true :=
    Multiset.countP_pos_of_mem hother ⟨hindex, by simpa using hother'⟩
  omega

theorem slot_eq (hcounted : Counted cache) {left right : Slot}
    (hleft : cache.lru.dev left = cache.dev) (hright : cache.lru.dev right = cache.dev)
    (hblockno : cache.lru.blockno left = cache.lru.blockno right) :
    left = right :=
  hcounted.distinct left right (hleft ▸ hcounted.dev_ne) (hleft.trans hright.symm) hblockno

/-- The buffers of two holders of the same block are one buffer. -/
theorem holder_eq [DecidableEq Proc] (hcounted : Counted cache) (hmem : buf ∈ cache.handles)
    (hothers : other ∈ cache.handles) (hdev : buf.dev = cache.dev)
    (hotherdev : other.dev = cache.dev) (hblockno : other.blockno = buf.blockno)
    (hholds : buf.phase.holds = true) (hotherholds : other.phase.holds = true) : other = buf := by
  obtain ⟨hkeydev, hkeyblockno⟩ := hcounted.attached buf hmem
  obtain ⟨hotherkey, hotherblockno⟩ := hcounted.attached other hothers
  by_contra hne
  have hindex := hcounted.slot_eq (hotherkey.trans hotherdev) (hkeydev.trans hdev)
    (hotherblockno.trans (hblockno.trans hkeyblockno.symm))
  have hfree := hcounted.alone hmem hholds ((Multiset.mem_erase_of_ne hne).mpr hothers) hindex
  exact Bool.false_ne_true (hfree.symm.trans hotherholds)

theorem share_eq_one (hcounted : Counted cache) (hmem : buf ∈ cache.handles)
    (hdev : buf.dev = cache.dev) (hpinned : buf.blockno ∈ cache.pinned) :
    cache.share buf.index = 1 := by
  obtain ⟨hkey, hblockno⟩ := hcounted.attached buf hmem
  exact if_pos ⟨hkey.trans hdev, hblockno ▸ hpinned⟩

/-! ### Rules -/

/-- A buffer enters another phase and takes the lock with it. -/
theorem pass [DecidableEq Proc] (hcounted : Counted cache) (phase : Phase)
    (hmem : buf ∈ cache.handles)
    (hother : ∀ slot ≠ buf.index, next.locked slot = cache.locked slot)
    (hlocked : (next.locked buf.index).toNat + buf.phase.holds.toNat =
      (cache.locked buf.index).toNat + phase.holds.toNat)
    (hpending : ∀ refcnt, phase.pending = some refcnt → cache.lru.refcnt buf.index = refcnt)
    (hpins : phase.pins = true → buf.dev = cache.dev ∧ buf.blockno ∉ cache.logged)
    (hhandles : next.handles = { buf with phase := phase } ::ₘ cache.handles.erase buf)
    (hdev : next.dev = cache.dev) (hlru : next.lru = cache.lru)
    (hmachine : next.machine = cache.machine)
    (hprogress : next.progress = cache.progress) : Counted next := by
  have hcons := Multiset.cons_erase hmem
  obtain ⟨hlogged, hpinned⟩ := Cache.logged_congr hmachine hprogress
  have hforall : ∀ property : Handle Proc → Prop, property { buf with phase := phase } →
      (∀ handle ∈ cache.handles, property handle) → ∀ handle ∈ next.handles, property handle := by
    intro property hnew hold handle hhandle
    rw [hhandles, Multiset.mem_cons] at hhandle
    rcases hhandle with rfl | hhandle
    · exact hnew
    · exact hold handle (Multiset.mem_of_mem_erase hhandle)
  refine ⟨hdev ▸ hcounted.dev_ne, hlru ▸ hcounted.complete,
    hlru ▸ hcounted.distinct, ?_, ?_, ?_, ?_, ?_, ?_,
    hmachine ▸ hcounted.coherent, hprogress ▸ hmachine ▸ hcounted.rest⟩
  · rw [hlru]
    exact hforall _ (hcounted.attached buf hmem) hcounted.attached
  · intro slot
    have hcount := hcounted.refcnt_eq slot
    rw [Cache.users, ← hcons, Multiset.countP_cons] at hcount
    rw [Cache.users, Cache.share, hhandles, Multiset.countP_cons, hlru, hdev, hpinned]
    exact hcount
  · rw [hpinned, hlru, hdev]
    exact hcounted.held
  · intro slot
    have hcount := hcounted.locked_eq slot
    rw [← hcons, Multiset.countP_cons] at hcount
    rw [hhandles, Multiset.countP_cons]
    by_cases hslot : buf.index = slot
    · subst hslot
      cases hold : buf.phase.holds <;> cases hnew : phase.holds <;>
        simp_all
    · rw [hother slot (Ne.symm hslot)]
      simpa [hslot] using hcount
  · rw [hlru]
    exact hforall _ hpending hcounted.pending
  · rw [hdev, hlogged]
    exact hforall _ hpins hcounted.pinning

/-- A step of the log that pins and unpins nothing. -/
theorem keep (hcounted : Counted cache) (hdev : next.dev = cache.dev)
    (hlru : next.lru = cache.lru) (hlocked : next.locked = cache.locked)
    (hhandles : next.handles = cache.handles) (hpinned : next.pinned = cache.pinned)
    (hlogged : next.logged ⊆ cache.logged) (hcoherent : Coherent next.machine)
    (hrest : next.machine.log.commiting = false →
      next.progress.atRest = true) : Counted next := by
  refine ⟨hdev ▸ hcounted.dev_ne, hlru ▸ hcounted.complete,
    hlru ▸ hcounted.distinct, ?_, ?_, ?_, ?_, ?_, ?_, hcoherent, hrest⟩
  · rw [hlru, hhandles]
    exact hcounted.attached
  · intro slot
    rw [Cache.users, Cache.share, hlru, hdev, hpinned, hhandles]
    exact hcounted.refcnt_eq slot
  · rw [hpinned, hlru, hdev]
    exact hcounted.held
  · rw [hlocked, hhandles]
    exact hcounted.locked_eq
  · rw [hlru, hhandles]
    exact hcounted.pending
  · rw [hhandles, hdev]
    intro handle hmem hpins
    obtain ⟨hhandle, hnot⟩ := hcounted.pinning handle hmem hpins
    exact ⟨hhandle, fun hin => hnot (hlogged hin)⟩

/-- The log takes or gives up its reference to one slot. -/
theorem recount (hcounted : Counted cache) {slot : Slot} {count : ℕ}
    (hlru : next.lru = cache.lru.setRefcnt slot count)
    (hcount : count = cache.users slot + next.share slot)
    (hshare : ∀ other ≠ slot, next.share other = cache.share other)
    (hheld : ∀ blockno ∈ next.pinned, blockno ∈ cache.pinned ∨
      (cache.lru.dev slot = cache.dev ∧ cache.lru.blockno slot = blockno))
    (hquiet : ∀ handle ∈ cache.handles, handle.index = slot → handle.phase.pending = none)
    (hpinning : ∀ handle ∈ cache.handles, handle.phase.pins = true → handle.blockno ∉ next.logged)
    (hdev : next.dev = cache.dev) (hlocked : next.locked = cache.locked)
    (hhandles : next.handles = cache.handles) (hcoherent : Coherent next.machine)
    (hrest : next.machine.log.commiting = false →
      next.progress.atRest = true) : Counted next := by
  have hkeys : next.lru.dev = cache.lru.dev ∧
      next.lru.blockno = cache.lru.blockno := by
    rw [hlru]
    exact ⟨rfl, rfl⟩
  have hrefcnt : next.lru.refcnt = update cache.lru.refcnt slot count := by
    rw [hlru]
    rfl
  have hcomplete : next.lru.Complete := by
    rw [hlru]
    exact hcounted.complete
  refine ⟨hdev ▸ hcounted.dev_ne, hcomplete, ?_, ?_, ?_, ?_, ?_, ?_, ?_, hcoherent, hrest⟩
  · rw [hkeys.1, hkeys.2]
    exact hcounted.distinct
  · rw [hkeys.1, hkeys.2, hhandles]
    exact hcounted.attached
  · intro other
    have husers : next.users other = cache.users other := by rw [Cache.users, hhandles, Cache.users]
    rw [hrefcnt, husers]
    by_cases hother : other = slot
    · rw [hother, update_self, hcount]
    · rw [update_of_ne hother, hcounted.refcnt_eq, hshare other hother]
  · rw [hkeys.1, hkeys.2, hdev]
    intro blockno hblockno
    rcases hheld blockno hblockno with hold | hnew
    · exact hcounted.held blockno hold
    · exact ⟨slot, hnew⟩
  · rw [hlocked, hhandles]
    exact hcounted.locked_eq
  · rw [hhandles, hrefcnt]
    intro handle hmem refcnt hpending
    have hne : handle.index ≠ slot := by
      intro heq
      rw [hquiet handle hmem heq] at hpending
      cases hpending
    rw [update_of_ne hne]
    exact hcounted.pending handle hmem refcnt hpending
  · rw [hhandles, hdev]
    intro handle hmem hpins
    exact ⟨(hcounted.pinning handle hmem hpins).1, hpinning handle hmem hpins⟩

/-- A buffer on a slot that stands for its block. -/
theorem hit (hcounted : Counted cache) {proc : Proc} {index : Slot}
    (hquiet : ∀ handle ∈ cache.handles, handle.index = index → handle.phase.pending = none) :
    Counted { cache with
      lru := cache.lru.setRefcnt index (cache.lru.refcnt index + 1)
      handles := ⟨proc, index, cache.lru.dev index, cache.lru.blockno index,
        .waiting⟩ ::ₘ cache.handles } := by
  refine ⟨hcounted.dev_ne, hcounted.complete, hcounted.distinct, ?_, ?_,
    hcounted.held, ?_, ?_, ?_, hcounted.coherent, hcounted.rest⟩
  · exact Multiset.forall_mem_cons.mpr ⟨⟨rfl, rfl⟩, hcounted.attached⟩
  · intro slot
    change update cache.lru.refcnt index _ slot =
      Multiset.countP _ (_ ::ₘ cache.handles) + cache.share slot
    rw [Multiset.countP_cons, update_add_one, hcounted.refcnt_eq]
    exact Nat.add_right_comm _ _ _
  · intro slot
    change _ = Multiset.countP _ (_ ::ₘ cache.handles)
    rw [Multiset.countP_cons]
    simpa [Phase.holds] using hcounted.locked_eq slot
  · refine Multiset.forall_mem_cons.mpr ⟨nofun, ?_⟩
    intro handle hmem refcnt hpending
    have hne : handle.index ≠ index := by
      intro heq
      rw [hquiet handle hmem heq] at hpending
      cases hpending
    change update cache.lru.refcnt index _ handle.index = refcnt
    rw [update_of_ne hne]
    exact hcounted.pending handle hmem refcnt hpending
  · exact Multiset.forall_mem_cons.mpr ⟨nofun, hcounted.pinning⟩

/-- A buffer on a slot that is taken over for its block. -/
theorem miss (hcounted : Counted cache) {proc : Proc} {dev blockno : UInt32}
    {index : Slot} (hzero : cache.lru.refcnt index = 0) (hfresh : ∀ slot, cache.lru.dev slot = dev →
      cache.lru.blockno slot ≠ blockno)
    (hlru : next.lru = { cache.lru with
      dev := update cache.lru.dev index dev
      blockno := update cache.lru.blockno index blockno
      refcnt := update cache.lru.refcnt index 1 })
    (hhandles : next.handles = ⟨proc, index, dev, blockno, .waiting⟩ ::ₘ cache.handles)
    (hdev : next.dev = cache.dev) (hlocked : next.locked = cache.locked)
    (hmachine : next.machine = cache.machine)
    (hprogress : next.progress = cache.progress) : Counted next := by
  obtain ⟨hlogged, hpinned⟩ := Cache.logged_congr hmachine hprogress
  have hnone : cache.users index = 0 ∧ cache.share index = 0 := by
    have hcount := hcounted.refcnt_eq index
    omega
  have hne : ∀ handle ∈ cache.handles, handle.index ≠ index := by
    rintro handle hmem rfl
    have hpos := users_pos hmem
    omega
  have hself : next.lru.dev index = dev ∧ next.lru.blockno index = blockno ∧
      next.lru.refcnt index = 1 := by
    rw [hlru]
    exact ⟨update_self .., update_self .., update_self ..⟩
  have hother : ∀ slot ≠ index, next.lru.dev slot = cache.lru.dev slot ∧
      next.lru.blockno slot = cache.lru.blockno slot ∧
      next.lru.refcnt slot = cache.lru.refcnt slot := by
    intro slot hslot
    rw [hlru]
    exact ⟨update_of_ne hslot .., update_of_ne hslot .., update_of_ne hslot ..⟩
  have hcomplete : next.lru.Complete := by
    rw [hlru]
    exact hcounted.complete
  refine ⟨hdev ▸ hcounted.dev_ne, hcomplete, ?_, ?_, ?_, ?_, ?_, ?_, ?_,
    hmachine ▸ hcounted.coherent, hprogress ▸ hmachine ▸ hcounted.rest⟩
  · intro left right hleft hdevs hblocknos
    by_cases hl : left = index
    · by_cases hr : right = index
      · rw [hl, hr]
      · rw [hl, hself.1, (hother right hr).1] at hdevs
        rw [hl, hself.2.1, (hother right hr).2.1] at hblocknos
        exact absurd hblocknos.symm (hfresh right hdevs.symm)
    · rw [(hother left hl).1] at hleft hdevs
      rw [(hother left hl).2.1] at hblocknos
      by_cases hr : right = index
      · rw [hr, hself.1] at hdevs
        rw [hr, hself.2.1] at hblocknos
        exact absurd hblocknos (hfresh left hdevs)
      · rw [(hother right hr).1] at hdevs
        rw [(hother right hr).2.1] at hblocknos
        exact hcounted.distinct left right hleft hdevs hblocknos
  · rw [hhandles]
    refine Multiset.forall_mem_cons.mpr ⟨⟨hself.1, hself.2.1⟩, ?_⟩
    intro handle hmem
    rw [(hother _ (hne handle hmem)).1, (hother _ (hne handle hmem)).2.1]
    exact hcounted.attached handle hmem
  · intro slot
    rw [Cache.users, hhandles, Multiset.countP_cons, Cache.share, hpinned, hdev]
    by_cases hslot : slot = index
    · subst hslot
      have hshare : ¬(next.lru.dev slot = cache.dev ∧
          next.lru.blockno slot ∈ cache.pinned) := by
        rintro ⟨hkey, hmem⟩
        obtain ⟨old, hold, hblockno⟩ := hcounted.held _ hmem
        rw [hself.1] at hkey
        exact hfresh old (hold.trans hkey.symm) (hblockno.trans hself.2.1)
      rw [if_pos rfl, if_neg hshare, hself.2.2]
      change 1 = cache.users slot + 1 + 0
      rw [hnone.1]
    · obtain ⟨hsdev, hsblockno, hsrefcnt⟩ := hother slot hslot
      rw [if_neg (Ne.symm hslot), hsdev, hsblockno, hsrefcnt]
      exact hcounted.refcnt_eq slot
  · rw [hpinned, hdev]
    intro held hheld
    obtain ⟨slot, hsdev, hsblockno⟩ := hcounted.held held hheld
    have hslot : slot ≠ index := by
      rintro rfl
      have hshare : cache.share slot = 1 := if_pos ⟨hsdev, hsblockno ▸ hheld⟩
      omega
    exact ⟨slot, (hother slot hslot).1.trans hsdev, (hother slot hslot).2.1.trans hsblockno⟩
  · intro slot
    rw [hlocked, hhandles, Multiset.countP_cons]
    simpa [Phase.holds] using hcounted.locked_eq slot
  · rw [hhandles]
    refine Multiset.forall_mem_cons.mpr ⟨nofun, ?_⟩
    intro handle hmem
    rw [(hother _ (hne handle hmem)).2.2]
    exact hcounted.pending handle hmem
  · rw [hhandles, hdev, hlogged]
    exact Multiset.forall_mem_cons.mpr ⟨nofun, hcounted.pinning⟩

/-- A buffer that is given up. -/
theorem leave [DecidableEq Proc] (hcounted : Counted cache) {lru : BufLru}
    (hmem : buf ∈ cache.handles) (hphase : buf.phase = .leaving)
    (hmove : cache.lru.moveIfNoRef buf.index = some lru)
    (hquiet : ∀ handle ∈ cache.handles, handle.index = buf.index → handle.phase.pending = none) :
    Counted { cache with lru, handles := cache.handles.erase buf } := by
  obtain ⟨hpos, hcomplete, hdev, hblockno, hrefcnt⟩ := moveIfNoRef_eq_some hcounted.complete hmove
  have hcons := Multiset.cons_erase hmem
  have hold : ∀ handle ∈ cache.handles.erase buf, handle ∈ cache.handles :=
    fun handle => Multiset.mem_of_mem_erase
  refine ⟨hcounted.dev_ne, hcomplete, ?_, ?_, ?_, ?_, ?_, ?_, ?_, hcounted.coherent, hcounted.rest⟩
  · change ∀ left right, lru.dev left ≠ 0 → _
    rw [hdev, hblockno]
    exact hcounted.distinct
  · intro handle hhandle
    change lru.dev _ = _ ∧ lru.blockno _ = _
    rw [hdev, hblockno]
    exact hcounted.attached handle (hold handle hhandle)
  · intro slot
    have hcount := hcounted.refcnt_eq slot
    rw [Cache.users, ← hcons, Multiset.countP_cons, Cache.share] at hcount
    change lru.refcnt slot = Multiset.countP _ (cache.handles.erase buf) +
      if lru.dev slot = cache.dev ∧ lru.blockno slot ∈ cache.pinned then 1 else 0
    rw [hrefcnt, hdev, hblockno]
    have hdown := update_sub_one hpos slot
    omega
  · change ∀ blockno ∈ cache.pinned, ∃ slot, lru.dev slot = cache.dev ∧ lru.blockno slot = blockno
    rw [hdev, hblockno]
    exact hcounted.held
  · intro slot
    have hcount := hcounted.locked_eq slot
    rw [← hcons, Multiset.countP_cons] at hcount
    simpa [hphase, Phase.holds] using hcount
  · intro handle hhandle refcnt hpending
    have hne : handle.index ≠ buf.index := by
      intro heq
      rw [hquiet handle (hold handle hhandle) heq] at hpending
      cases hpending
    change lru.refcnt _ = _
    rw [hrefcnt, update_of_ne hne]
    exact hcounted.pending handle (hold handle hhandle) refcnt hpending
  · intro handle hhandle
    exact hcounted.pinning handle (hold handle hhandle)

/-! ### The log -/

theorem atRest (hcounted : Counted cache) {proc : Proc}
    (hop : proc ∈ cache.machine.ops) : cache.progress.atRest = true :=
  hcounted.rest (hcounted.coherent.not_commiting hop).2

theorem busy (hcounted : Counted cache) {proc : Proc} {progress : Progress}
    (hreads : reads (cache.machine.stage proc) = true)
    (hflag : cache.machine.log.commiting = false) : progress.atRest = true := by
  have hidle := hcounted.coherent.idle_of_not_commiting hflag proc
  rw [hidle] at hreads
  cases hreads

/-- Nobody else is about to store a reference count of the holder's slot. -/
theorem quiet_enter [DecidableEq Proc] (hcounted : Counted cache) {phase : Phase}
    (hmem : buf ∈ cache.handles) (hholds : buf.phase.holds = true) (hphase : phase.pending = none) :
    ∀ handle ∈ (cache.enter buf phase).handles, handle.index = buf.index →
      handle.phase.pending = none := by
  refine Multiset.forall_mem_cons.mpr ⟨fun _ => hphase, ?_⟩
  intro handle hhandle hindex
  exact Phase.pending_of_not_holds (hcounted.alone hmem hholds hhandle hindex)

/-- The block of a buffer in use is in no other slot. -/
theorem blockno_ne (hcounted : Counted cache) (hmem : buf ∈ cache.handles)
    (hbufdev : buf.dev = cache.dev) {slot : Slot} (hslot : slot ≠ buf.index)
    (hdev : cache.lru.dev slot = cache.dev) : cache.lru.blockno slot ≠ buf.blockno := by
  obtain ⟨hkeydev, hkeyblockno⟩ := hcounted.attached buf hmem
  intro heq
  exact hslot (hcounted.slot_eq hdev (hkeydev.trans hbufdev) (heq.trans hkeyblockno.symm))

/-- The second half of `pin`, with the entry in the header. -/
theorem pin [DecidableEq Proc] (hcounted : Counted cache) {refcnt : ℕ} {machine : Machine Proc}
    (hmem : buf ∈ cache.handles) (hphase : buf.phase = .pinning refcnt)
    (hmoves : Moves cache.machine (.write buf.proc buf.blockno) machine) :
    Counted { cache.enter buf .dropping with
      lru := cache.lru.setRefcnt buf.index (refcnt + 1), machine } := by
  obtain ⟨hbufdev, hfresh⟩ := hcounted.pinning buf hmem (by rw [hphase]; rfl)
  obtain ⟨hkeydev, hkeyblockno⟩ := hcounted.attached buf hmem
  have hholds : buf.phase.holds = true := by
    rw [hphase]
    rfl
  have hcoherent := hcounted.coherent.moves hmoves
  have hentered : Counted (cache.enter buf .dropping) :=
    hcounted.pass .dropping hmem (fun _ _ => rfl)
      (by rw [hphase]; rfl) nofun nofun rfl rfl rfl rfl rfl
  have hrefcnt := hentered.refcnt_eq buf.index
  have hloaded : cache.lru.refcnt buf.index = refcnt :=
    hcounted.pending buf hmem refcnt (by rw [hphase]; rfl)
  cases hmoves with
  | @write _ _ log hop hlog =>
    have hrest := hcounted.atRest hop
    have hunpinned := Progress.unpinned_of_atRest hrest
    obtain ⟨-, ⟨hold, -⟩ | ⟨-, hlen, -, rfl⟩⟩ := Log.write_eq_ok hlog
    · exact absurd hold hfresh
    · have hpush : (cache.machine.log.lh.push buf.blockno).logged = cache.logged ++ [buf.blockno] :=
        LogHeader.logged_push _ _ (by omega)
      have hold : ∀ slot, cache.share slot =
          if cache.lru.dev slot = cache.dev ∧
            cache.lru.blockno slot ∈ cache.logged then 1 else 0 := by
        intro slot
        rw [Cache.share, Cache.pinned, hunpinned, List.drop_zero]
      have hnew : (cache.machine.log.lh.push buf.blockno).logged.drop
          cache.progress.unpinned = cache.logged ++ [buf.blockno] := by
        rw [hunpinned, hpush, List.drop_zero]
      refine hentered.recount rfl ?_ ?_ ?_
        (hcounted.quiet_enter hmem hholds rfl) ?_ rfl rfl rfl hcoherent fun _ => hrest
      · change refcnt + 1 = _ + if cache.lru.dev buf.index = cache.dev ∧
          cache.lru.blockno buf.index ∈ (cache.machine.log.lh.push buf.blockno).logged.drop
              cache.progress.unpinned then 1 else 0
        rw [hnew, hkeydev, hkeyblockno, if_pos ⟨hbufdev, by simp⟩]
        have hzero : cache.share buf.index = 0 := by
          rw [hold, hkeyblockno, if_neg fun hkey => hfresh hkey.2]
        change cache.lru.refcnt buf.index = _ + cache.share buf.index at hrefcnt
        omega
      · intro slot hslot
        change (if cache.lru.dev slot = cache.dev ∧ cache.lru.blockno slot ∈
            (cache.machine.log.lh.push buf.blockno).logged.drop
              cache.progress.unpinned then 1 else 0) = cache.share slot
        rw [hnew, hold]
        refine if_congr (and_congr_right fun hdev => ?_) rfl rfl
        simp [hcounted.blockno_ne hmem hbufdev hslot hdev]
      · intro blockno hblockno
        change blockno ∈ (cache.machine.log.lh.push buf.blockno).logged.drop
          cache.progress.unpinned at hblockno
        rw [hnew, List.mem_append, List.mem_singleton] at hblockno
        rcases hblockno with hmem | rfl
        · left
          change blockno ∈ cache.pinned
          rwa [Cache.pinned, hunpinned, List.drop_zero]
        · exact .inr ⟨hkeydev.trans hbufdev, hkeyblockno⟩
      · intro handle hhandle hpins
        change handle.blockno ∉ (cache.machine.log.lh.push buf.blockno).logged
        rw [hpush, List.mem_append, List.mem_singleton, not_or]
        rcases Multiset.mem_cons.mp hhandle with rfl | hhandle
        · cases hpins
        · have hin := Multiset.mem_of_mem_erase hhandle
          obtain ⟨hdev, hnot⟩ := hcounted.pinning handle hin hpins
          refine ⟨hnot, ?_⟩
          obtain ⟨hotherdev, hotherblockno⟩ := hcounted.attached handle hin
          rw [← hotherblockno]
          refine hcounted.blockno_ne hmem hbufdev ?_ (hotherdev.trans hdev)
          intro hindex
          have hfree := hcounted.alone hmem hholds hhandle hindex
          cases hother : handle.phase <;>
            simp_all [Phase.holds, Phase.pins]

/-- The second half of `unpin`. -/
theorem unpin [DecidableEq Proc] (hcounted : Counted cache) {refcnt count : ℕ}
    (hprogress : cache.progress = .installed count)
    (hmem : buf ∈ cache.handles) (hphase : buf.phase = .unpinning refcnt)
    (hbufdev : buf.dev = cache.dev) (hreads : reads (cache.machine.stage buf.proc) = true)
    (hhome : cache.logged[count]? = some buf.blockno) :
    Counted { cache.enter buf .loaded with
      lru := cache.lru.setRefcnt buf.index (refcnt - 1)
      progress := .installing (count + 1) } := by
  obtain ⟨hkeydev, hkeyblockno⟩ := hcounted.attached buf hmem
  have hholds : buf.phase.holds = true := by
    rw [hphase]
    rfl
  have hentered : Counted (cache.enter buf .loaded) := hcounted.pass .loaded hmem (fun _ _ => rfl)
      (by rw [hphase]; rfl) nofun nofun rfl rfl rfl rfl rfl
  have hrefcnt := hentered.refcnt_eq buf.index
  have hloaded : cache.lru.refcnt buf.index = refcnt :=
    hcounted.pending buf hmem refcnt (by rw [hphase]; rfl)
  have hpinned := pinned_eq_cons hprogress hhome
  have hfresh : buf.blockno ∉ cache.logged.drop (count + 1) := by
    have hnodup : cache.pinned.Nodup := hcounted.coherent.nodup.sublist (List.drop_sublist _ _)
    rw [hpinned] at hnodup
    exact (List.nodup_cons.mp hnodup).1
  refine hentered.recount rfl ?_ ?_ ?_ (hcounted.quiet_enter hmem hholds rfl) ?_ rfl rfl rfl
    hcounted.coherent ?_
  · change refcnt - 1 = _ + if cache.lru.dev buf.index = cache.dev ∧
      cache.lru.blockno buf.index ∈ cache.logged.drop (count + 1) then 1 else 0
    rw [hkeyblockno, if_neg fun hkey => hfresh hkey.2]
    have hone := hcounted.share_eq_one hmem hbufdev (mem_pinned hprogress hhome)
    change cache.lru.refcnt buf.index = _ + cache.share buf.index at hrefcnt
    omega
  · intro slot hslot
    change (if cache.lru.dev slot = cache.dev ∧
      cache.lru.blockno slot ∈ cache.logged.drop (count + 1) then 1 else 0) = cache.share slot
    rw [Cache.share, hpinned]
    refine if_congr (and_congr_right fun hdev => ?_) rfl rfl
    simp [hcounted.blockno_ne hmem hbufdev hslot hdev]
  · intro blockno hblockno
    left
    change blockno ∈ cache.pinned
    rw [hpinned]
    exact List.mem_cons_of_mem _ hblockno
  · intro handle hhandle hpins
    exact (hentered.pinning handle hhandle hpins).2
  · exact hcounted.busy hreads

theorem locked_of_holds (hcounted : Counted cache)
    (hmem : buf ∈ cache.handles) (hholds : buf.phase.holds = true) :
    cache.locked buf.index = true := by
  have hpos : 0 < (cache.locked buf.index).toNat := by
    rw [hcounted.locked_eq]
    exact Multiset.countP_pos_of_mem hmem ⟨rfl, hholds⟩
  cases hlocked : cache.locked buf.index with
  | false =>
    rw [hlocked] at hpos
    exact absurd hpos (lt_irrefl 0)
  | true => rfl

/-- A phase change of the holder of a sleep lock that keeps the lock. -/
theorem enter [DecidableEq Proc] (hcounted : Counted cache) {phase : Phase}
    (hmem : buf ∈ cache.handles) (hholds : buf.phase.holds = phase.holds)
    (hpending : ∀ refcnt, phase.pending = some refcnt → cache.lru.refcnt buf.index = refcnt)
    (hpins : phase.pins = true → buf.dev = cache.dev ∧ buf.blockno ∉ cache.logged) :
    Counted (cache.enter buf phase) :=
  hcounted.pass phase hmem (fun _ _ => rfl) (by rw [hholds]; rfl) hpending hpins rfl rfl rfl rfl rfl

theorem refill (hcounted : Counted cache) (valid : Slot → Bool)
    (data : Slot → Block) (disk : UInt32 → Block) : Counted { cache with valid, data, disk } :=
  hcounted.keep rfl rfl rfl rfl rfl (List.Subset.refl _) hcounted.coherent hcounted.rest

/-- The log and the commit move on, and the header stays. -/
theorem turn (hcounted : Counted cache) {machine : Machine Proc}
    {progress : Progress} (hlh : machine.log.lh = cache.machine.log.lh)
    (hunpinned : progress.unpinned = cache.progress.unpinned) (hcoherent : Coherent machine)
    (hrest : machine.log.commiting = false → progress.atRest = true) :
    Counted { cache with machine, progress } := by
  refine hcounted.keep rfl rfl rfl rfl ?_ ?_ hcoherent hrest
  · change machine.log.lh.logged.drop progress.unpinned = _
    rw [hlh, hunpinned]
    rfl
  · change machine.log.lh.logged ⊆ _
    rw [hlh]
    exact List.Subset.refl _

/-- The header is emptied when no slot is pinned any more. -/
theorem commit [DecidableEq Proc] (hcounted : Counted cache) {proc : Proc}
    {machine : Machine Proc} {progress : Progress}
    (hmoves : Moves cache.machine (.commit proc) machine)
    (hlen : cache.machine.log.lh.len ≤ cache.progress.unpinned) :
    Counted { cache with machine, progress } := by
  have hcoherent := hcounted.coherent.moves hmoves
  have hpinned : cache.pinned = [] := by
    rw [Cache.pinned, List.drop_eq_nil_iff]
    exact (List.length_take_le _ _).trans hlen
  cases hmoves with
  | @commit _ found hstage =>
    have hflag := hcounted.coherent.commiting proc (by simp [hstage])
    refine hcounted.keep rfl rfl rfl rfl ?_ (List.nil_subset _) hcoherent ?_
    · rw [hpinned]
      exact List.drop_nil
    · intro hunset
      cases hflag.symm.trans hunset

theorem endOp [DecidableEq Proc] (hcounted : Counted cache) {proc : Proc} {machine : Machine Proc}
    (hmoves : Moves cache.machine (.endOp proc) machine) :
    Counted { cache with
      machine
      progress := if reads (machine.stage proc) then .logging 0
        else cache.progress } := by
  have hrest : cache.progress.atRest = true := by
    cases hmoves with
    | endOp hstage hop hlog => exact hcounted.atRest hop
  refine hcounted.turn (hmoves.lh_eq nofun nofun) ?_ (hcounted.coherent.moves hmoves) ?_
  · split
    · exact (Progress.unpinned_of_atRest hrest).symm
    · rfl
  · cases hmoves with
    | endOp hstage hop hlog =>
      intro hflag
      obtain ⟨-, -, ⟨rfl, -, rfl⟩ | ⟨rfl, -, rfl⟩⟩ := Log.endOp_eq_ok hlog
      · cases hflag
      · simpa [reads] using hrest

end Counted

/-! ## Steps and runs -/

/-- Nobody changes a reference count between the two halves of a `pin` or
`unpin` of another buffer on the slot. -/
def Apart (cache : Cache Proc) : Action Proc → Prop
  | .get _ dev blockno => ∀ handle ∈ cache.handles, handle.dev = dev → handle.blockno = blockno →
        handle.phase.pending = none
  | .release buf => ∀ handle ∈ cache.handles, handle.index = buf.index → handle.phase.pending = none
  | _ => True

/-- Only buffers of the log's device are logged. -/
def OnDevice (cache : Cache Proc) : Action Proc → Prop
  | .logWrite buf => buf.dev = cache.dev
  | _ => True

theorem counted_step [DecidableEq Proc] (cache : Cache Proc) (action : Action Proc)
    (next : Cache Proc) (hcounted : Counted cache)
    (hadmitted : Apart cache action ∧ OnDevice cache action)
    (hstep : cache.step action = some next) : Counted next := by
  obtain ⟨hapart, hdevice⟩ := hadmitted
  cases Cache.step_effect hstep with
  | @hit proc dev blockno index lru hfind =>
    obtain ⟨rfl, rfl, rfl⟩ := findCached_eq_some hcounted.complete hfind
    refine hcounted.hit ?_
    intro handle hmem hindex
    obtain ⟨hdev, hblockno⟩ := hcounted.attached handle hmem
    exact hapart handle hmem (by rw [← hdev, hindex]) (by rw [← hblockno, hindex])
  | miss hfind hrecycle =>
    obtain ⟨hzero, hlru⟩ := recycle_eq_some hcounted.complete hrecycle
    exact hcounted.miss hzero (findCached_eq_none hcounted.complete hfind) hlru rfl rfl rfl rfl rfl
  | lock hmem hphase hfree =>
    refine hcounted.pass .locked hmem ?_ ?_ nofun nofun rfl rfl rfl rfl rfl
    · intro slot hslot
      exact update_of_ne hslot ..
    · change (update cache.locked _ true _).toNat + _ = _
      rw [update_self, hphase, hfree]
      rfl
  | @load buf hmem hphase =>
    have hholds : buf.phase.holds = Phase.loaded.holds := by
      rw [hphase]
      rfl
    unfold Cache.load
    split
    · exact hcounted.enter hmem hholds nofun nofun
    · exact (hcounted.refill _ _ _).enter hmem hholds nofun nofun
  | @store buf block hmem hphase hop =>
    refine (hcounted.refill _ _ _).enter hmem ?_ nofun nofun
    exact Phase.holds_of_usable hphase
  | absorb hmem hphase hmoves hlogged =>
    exact hcounted.enter hmem (Phase.holds_of_usable hphase) nofun nofun
  | loadPin hmem hphase hmoves hlogged =>
    refine hcounted.enter hmem (Phase.holds_of_usable hphase) ?_ ?_
    · rintro refcnt ⟨⟩
      rfl
    · exact fun _ => ⟨hdevice, hlogged⟩
  | pin hmem hphase hmoves => exact hcounted.pin hmem hphase hmoves
  | @unlock buf hmem hphase =>
    have hholds : buf.phase.holds = true := by
      rcases hphase with hphase | hphase
      · rw [hphase]
        rfl
      · rw [hphase]
        rfl
    refine hcounted.pass .leaving hmem ?_ ?_ nofun nofun rfl rfl rfl rfl rfl
    · intro slot hslot
      exact update_of_ne hslot ..
    · change (update cache.locked _ false _).toNat + _ = _
      rw [update_self, hholds, hcounted.locked_of_holds hmem hholds]
      rfl
  | release hmem hphase hmove => exact hcounted.leave hmem hphase hmove hapart
  | beginOp hprogress hmoves =>
    refine hcounted.turn (hmoves.lh_eq nofun nofun) rfl (hcounted.coherent.moves hmoves) ?_
    cases hmoves with
    | beginOp hstage hlog =>
      obtain ⟨hflag, -, rfl⟩ := Log.beginOp_eq_some hlog
      exact fun _ => hcounted.rest hflag
  | endOp hmoves => exact hcounted.endOp hmoves
  | writeLog hprogress _ _ hreads | writeHead hprogress _ hreads | install hprogress _ _ hreads =>
    exact (hcounted.turn rfl (by rw [hprogress]; rfl) hcounted.coherent
      (hcounted.busy hreads)).refill _ _ _
  | @loadRefcnt diskBuf count hprogress hdisk =>
    refine hcounted.enter hdisk.1 ?_ ?_ nofun
    · rw [hdisk.2.1]
      rfl
    · rintro refcnt ⟨⟩
      rfl
  | unpin hprogress hmem hphase hdev hreads hhome =>
    exact hcounted.unpin hprogress hmem hphase hdev hreads hhome
  | emptyHead hprogress hmoves => exact hcounted.commit hmoves (by rw [hprogress]; exact le_refl _)
  | clearHead hprogress hbuf hempties hblockno =>
    exact (hcounted.turn rfl (by rw [hprogress]; rfl) hcounted.coherent fun _ => rfl).refill _ _ _
  | skip hprogress hlen hmoves => exact hcounted.commit hmoves (by rw [hlen]; exact Nat.zero_le _)
  | finish hprogress hmoves =>
    exact hcounted.turn (hmoves.lh_eq nofun nofun) rfl
      (hcounted.coherent.moves hmoves) fun _ => by rw [hprogress]; rfl
  | restore hprogress hbuf => exact hcounted.refill _ _ _
  | recovered hprogress =>
    exact hcounted.turn rfl (by rw [hprogress]; rfl) hcounted.coherent fun _ => rfl

end RxOs.BufCounts
