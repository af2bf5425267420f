import RxOs.Core.Transition
import RxOs.Fs.Kernel

/-!
# The inode cache under interleaving

Handles on cached inodes are made, cloned, locked and dropped by any number of
processes.  Each step is one hold of the meta spin lock, one acquisition or
release of a slot's sleep lock, or what the holder of a sleep lock does to the
slot and to the inode on disk in between.  `InodeCache::put` drops the meta lock
around the truncation of an inode without links, so there it takes four steps.
-/

namespace RxOs.InodeCache

open Function Params Dinode Transition
open Kernel (Slot)

structure Key where
  dev : UInt32
  inum : UInt32
  deriving DecidableEq

/-- `InodeMeta`. -/
structure Meta where
  key : Key
  refs : ℕ
  deriving DecidableEq

/-- A slot's sleep lock and the `InodeData` behind it. -/
structure Data where
  locked : Bool
  valid : Bool
  key : Key
  dinode : DiskInode

/-- What is being done with a handle.  A guard belongs to the handle it was
made from; the last three phases are those of a truncating `put`. -/
inductive Phase
  | free
  | loading
  | guarded
  | truncating
  | truncated
  | leaving
  deriving DecidableEq

def Phase.holds : Phase → Bool
  | .loading | .guarded | .truncating | .truncated => true
  | .free | .leaving => false

/-- The phases in which `Inode::drop` has not been entered. -/
def Phase.usable : Phase → Bool
  | .free | .loading | .guarded => true
  | .truncating | .truncated | .leaving => false

/-- `Inode`, with the phase it is in. -/
structure Handle where
  key : Key
  index : Slot
  phase : Phase
  deriving DecidableEq

/-- The cache, the inodes on disk and the live handles. -/
structure Cache where
  metas : Slot → Meta
  datas : Slot → Data
  disk : Key → DiskInode
  handles : Multiset Handle

inductive Action
  | get (key : Key)
  | clone (handle : Handle)
  | lock (handle : Handle)
  | load (handle : Handle)
  | edit (handle : Handle) (dinode : DiskInode)
  | update (handle : Handle)
  | unlock (handle : Handle)
  | put (handle : Handle)
  | truncate (handle : Handle)
  | release (handle : Handle)
  | leave (handle : Handle)
  | alloc (key : Key) (itype : InodeType)

namespace Cache

def boot (disk : Key → DiskInode) : Cache where
  metas := fun _ => ⟨⟨0, 0⟩, 0⟩
  datas := fun _ => ⟨false, false, ⟨0, 0⟩, DiskInode.new⟩
  disk := disk
  handles := 0

def setRefs (cache : Cache) (index : Slot) (refs : ℕ) : Cache :=
  { cache with
    metas := Function.update cache.metas index { cache.metas index with refs := refs } }

def setData (cache : Cache) (index : Slot) (data : Data) : Cache :=
  { cache with datas := Function.update cache.datas index data }

def addHandle (cache : Cache) (handle : Handle) : Cache :=
  { cache with handles := handle ::ₘ cache.handles }

def dropHandle (cache : Cache) (handle : Handle) : Cache :=
  { cache with handles := cache.handles.erase handle }

def enter (cache : Cache) (handle : Handle) (phase : Phase) : Cache :=
  { cache with
    handles := { handle with phase := phase } ::ₘ cache.handles.erase handle }

def find (cache : Cache) (key : Key) : Option Slot :=
  (List.finRange ninode).find? fun index =>
    (cache.metas index).key = key ∧ 0 < (cache.metas index).refs

def vacant (cache : Cache) : Option Slot :=
  (List.finRange ninode).find? fun index => (cache.metas index).refs = 0

/-- `InodeCache::get`, in one hold of the meta lock.  The sleep lock of a vacant
slot is taken inside it; `sleep` means that this would have to wait. -/
def get (cache : Cache) (key : Key) : Except Stop Cache :=
  match cache.find key with
  | some index =>
    .ok ((cache.setRefs index ((cache.metas index).refs + 1)).addHandle ⟨key, index, .free⟩)
  | none =>
    match cache.vacant with
    | some index =>
      if (cache.datas index).locked then .error .sleep
      else if (cache.datas index).valid then
        .error (.panic .inodeCacheValid)
      else
        .ok ({ cache with
          metas := Function.update cache.metas index ⟨key, 1⟩ }.addHandle ⟨key, index, .free⟩)
    | none => .error (.panic .inodeCacheFull)

/-- `refs -= 1` as the last act of `put`. -/
def retire (cache : Cache) (handle : Handle) : Except Stop Cache :=
  if (cache.metas handle.index).refs = 0 then
    .error (.panic .subtractOverflow)
  else
    .ok ((cache.setRefs handle.index ((cache.metas handle.index).refs - 1)).dropHandle handle)

/-- `InodeCache::put` up to the point where it releases the meta lock. -/
def put (cache : Cache) (handle : Handle) : Except Stop Cache :=
  let data := cache.datas handle.index
  if (cache.metas handle.index).refs = 1 then
    if data.locked then .error .sleep
    else if data.valid = false ∨ 0 < data.dinode.nlink then
      (cache.setData handle.index { data with valid := false }).retire handle
    else
      .ok ((cache.setData handle.index { data with locked := true }).enter handle .truncating)
  else cache.retire handle

/-- `Inode::lock` up to the point where it owns the sleep lock. -/
def lock (cache : Cache) (handle : Handle) : Except Stop Cache :=
  let data := cache.datas handle.index
  if data.locked then .error .sleep
  else
    .ok ((cache.setData handle.index { data with locked := true }).enter handle
      (if data.valid then .guarded else .loading))

/-- The rest of `Inode::lock` for data that are not valid. -/
def load (cache : Cache) (handle : Handle) : Except Stop Cache :=
  let dinode := cache.disk handle.key
  if dinode.itype = .empty then .error (.panic .inodeTypeEmpty)
  else
    .ok ((cache.setData handle.index ⟨true, true, handle.key, dinode⟩).enter handle .guarded)

def store (cache : Cache) (key : Key) (dinode : DiskInode) : Cache :=
  { cache with disk := Function.update cache.disk key dinode }

/-- `idata.dinode` after the truncation in `put`. -/
def cleared (dinode : DiskInode) : DiskInode :=
  { dinode with itype := .empty, size := 0, addrs := fun _ => 0 }

def ready (cache : Cache) : Action → Prop
  | .get _ | .alloc _ _ => True
  | .clone handle => handle ∈ cache.handles ∧ handle.phase.usable
  | .lock handle | .put handle => handle ∈ cache.handles ∧ handle.phase = .free
  | .load handle => handle ∈ cache.handles ∧ handle.phase = .loading
  | .edit handle _ | .update handle | .unlock handle =>
    handle ∈ cache.handles ∧ handle.phase = .guarded
  | .truncate handle => handle ∈ cache.handles ∧ handle.phase = .truncating
  | .release handle => handle ∈ cache.handles ∧ handle.phase = .truncated
  | .leave handle => handle ∈ cache.handles ∧ handle.phase = .leaving

instance (cache : Cache) : (action : Action) → Decidable (cache.ready action)
  | .get _ | .alloc _ _ => .isTrue trivial
  | .clone _ | .lock _ | .put _ | .load _ | .edit _ _ | .update _ | .unlock _
  | .truncate _ | .release _ | .leave _ => inferInstanceAs (Decidable (_ ∧ _))

def attempt (cache : Cache) : Action → Except Stop Cache
  | .get key => cache.get key
  | .clone handle =>
    .ok ((cache.setRefs handle.index ((cache.metas handle.index).refs + 1)).addHandle
        { handle with phase := .free })
  | .lock handle => cache.lock handle
  | .load handle => cache.load handle
  | .edit handle dinode =>
    .ok (cache.setData handle.index { cache.datas handle.index with dinode := dinode })
  | .update handle =>
    .ok (cache.store (cache.datas handle.index).key (cache.datas handle.index).dinode)
  | .unlock handle =>
    .ok ((cache.setData handle.index
      { cache.datas handle.index with locked := false }).enter handle .free)
  | .put handle => cache.put handle
  | .truncate handle =>
    let data := cache.datas handle.index
    .ok (((cache.setData handle.index { data with dinode := cleared data.dinode }).store data.key
        (cleared data.dinode)).enter handle .truncated)
  | .release handle =>
    .ok ((cache.setData handle.index { cache.datas handle.index with
      locked := false, valid := false }).enter handle .leaving)
  | .leave handle => cache.retire handle
  | .alloc key itype =>
    if (cache.disk key).itype = .empty then
      .ok (cache.store key { DiskInode.new with itype := itype })
    else .ok cache

/-- One step; there is none where the code panics or has to wait. -/
def step (cache : Cache) (action : Action) : Option Cache :=
  if cache.ready action then (cache.attempt action).toOption else none

theorem step_eq_some {cache next : Cache} {action : Action}
    (hstep : cache.step action = some next) :
    cache.ready action ∧ cache.attempt action = .ok next := by
  unfold step at hstep
  split at hstep
  · next hready =>
      refine ⟨hready, ?_⟩
      cases hattempt : cache.attempt action with
      | error stop => simp [hattempt, Except.toOption] at hstep
      | ok result => simpa [hattempt, Except.toOption] using hstep
  · cases hstep

theorem find_eq_some {cache : Cache} {key : Key} {index : Slot}
    (hfind : cache.find key = some index) :
    (cache.metas index).key = key ∧ 0 < (cache.metas index).refs := by
  simpa using List.find?_some hfind

theorem find_eq_none {cache : Cache} {key : Key} (hfind : cache.find key = none)
    (index : Slot) (hrefs : 0 < (cache.metas index).refs) : (cache.metas index).key ≠ key := by
  intro hkey
  have hnot := List.find?_eq_none.mp hfind index (List.mem_finRange index)
  simp [hkey, hrefs] at hnot

theorem vacant_eq_some {cache : Cache} {index : Slot}
    (hvacant : cache.vacant = some index) : (cache.metas index).refs = 0 := by
  simpa using List.find?_some hvacant

end Cache

/-- Counts, keys and locks agree with the live handles. -/
structure Accounted (cache : Cache) : Prop where
  refs_eq : ∀ index, (cache.metas index).refs =
    cache.handles.countP fun handle => handle.index = index
  key_eq : ∀ handle ∈ cache.handles, (cache.metas handle.index).key = handle.key
  distinct : ∀ left right, 0 < (cache.metas left).refs → 0 < (cache.metas right).refs →
    (cache.metas left).key = (cache.metas right).key → left = right
  locked_eq : ∀ index, (cache.datas index).locked.toNat = cache.handles.countP fun handle =>
      handle.index = index ∧ handle.phase.holds = true

theorem accounted_boot (disk : Key → DiskInode) :
    Accounted (Cache.boot disk) where
  refs_eq := fun _ => rfl
  key_eq := fun _ hmem => absurd hmem (Multiset.notMem_zero _)
  distinct := fun _ _ hrefs => absurd hrefs (lt_irrefl 0)
  locked_eq := fun _ => rfl

namespace Accounted

variable {cache next : Cache} {handle : Handle}

theorem refs_pos (haccounted : Accounted cache) (hmem : handle ∈ cache.handles) :
    0 < (cache.metas handle.index).refs := by
  rw [haccounted.refs_eq]
  exact Multiset.countP_pos_of_mem hmem rfl

/-- The sleep lock is taken while somebody holds it. -/
theorem locked_of_holds (haccounted : Accounted cache)
    (hmem : handle ∈ cache.handles) (hholds : handle.phase.holds = true) :
    (cache.datas handle.index).locked = true := by
  have hpos : 0 < (cache.datas handle.index).locked.toNat := by
    rw [haccounted.locked_eq]
    exact Multiset.countP_pos_of_mem hmem ⟨rfl, hholds⟩
  cases hlocked : (cache.datas handle.index).locked with
  | false =>
    rw [hlocked] at hpos
    exact absurd hpos (lt_irrefl 0)
  | true => rfl

theorem locked_eq_false (haccounted : Accounted cache) {index : Slot}
    (hnone : ∀ handle ∈ cache.handles, handle.index = index → handle.phase.holds = false) :
    (cache.datas index).locked = false := by
  rw [← Bool.toNat_eq_zero, haccounted.locked_eq, Multiset.countP_eq_zero]
  rintro handle hmem ⟨hindex, hholds⟩
  rw [hnone handle hmem hindex] at hholds
  cases hholds

theorem locked_of_refs_zero (haccounted : Accounted cache) {index : Slot}
    (hrefs : (cache.metas index).refs = 0) : (cache.datas index).locked = false := by
  apply haccounted.locked_eq_false
  intro handle hmem hindex
  have hpos := haccounted.refs_pos hmem
  rw [hindex, hrefs] at hpos
  exact absurd hpos (lt_irrefl 0)

/-- The sleep lock is free when the only handle on the slot does not hold
it. -/
theorem locked_of_refs_one (haccounted : Accounted cache)
    (hmem : handle ∈ cache.handles) (hholds : handle.phase.holds = false)
    (hrefs : (cache.metas handle.index).refs = 1) : (cache.datas handle.index).locked = false := by
  apply haccounted.locked_eq_false
  intro other hother hindex
  obtain ⟨rest, hrest⟩ := Multiset.exists_cons_of_mem hmem
  rw [haccounted.refs_eq, hrest, Multiset.countP_cons, if_pos rfl,
    Nat.add_eq_right, Multiset.countP_eq_zero] at hrefs
  rw [hrest, Multiset.mem_cons] at hother
  rcases hother with rfl | hother
  · exact hholds
  · exact absurd hindex (hrefs other hother)

/-! ### Every step keeps the accounts -/

/-- A handle on a slot that is in use. -/
theorem share (haccounted : Accounted cache) {index : Slot} (hrefs : 0 < (cache.metas index).refs)
    (hmetas : next.metas = update cache.metas index
      { cache.metas index with refs := (cache.metas index).refs + 1 })
    (hdatas : next.datas = cache.datas) (hhandles : next.handles =
      ⟨(cache.metas index).key, index, .free⟩ ::ₘ cache.handles) : Accounted next := by
  have hkey : ∀ slot, (next.metas slot).key = (cache.metas slot).key := by
    intro slot
    rw [hmetas]
    by_cases hslot : slot = index
    · rw [hslot, update_self]
    · rw [update_of_ne hslot]
  have hpos : ∀ slot, 0 < (next.metas slot).refs → 0 < (cache.metas slot).refs := by
    intro slot hslot
    by_cases heq : slot = index
    · rwa [heq]
    · rwa [hmetas, update_of_ne heq] at hslot
  refine ⟨?_, ?_, ?_, ?_⟩
  · intro slot
    rw [hhandles, hmetas, Multiset.countP_cons, ← haccounted.refs_eq]
    by_cases hslot : slot = index
    · simp [hslot]
    · simp [hslot, Ne.symm hslot]
  · intro handle hmem
    rw [hhandles, Multiset.mem_cons] at hmem
    rw [hkey]
    rcases hmem with rfl | hmem
    · rfl
    · exact haccounted.key_eq handle hmem
  · intro left right hleft hright heq
    rw [hkey, hkey] at heq
    exact haccounted.distinct left right (hpos left hleft) (hpos right hright) heq
  · intro slot
    rw [hhandles, hdatas, haccounted.locked_eq, Multiset.countP_cons]
    simp [Phase.holds]

/-- A handle on a slot that is taken into use. -/
theorem occupy (haccounted : Accounted cache) {key : Key} {index : Slot}
    (hrefs : (cache.metas index).refs = 0) (hfresh : ∀ other, 0 < (cache.metas other).refs →
      (cache.metas other).key ≠ key) (hmetas : next.metas = update cache.metas index ⟨key, 1⟩)
    (hdatas : next.datas = cache.datas)
    (hhandles : next.handles = ⟨key, index, .free⟩ ::ₘ cache.handles) : Accounted next := by
  have hother : ∀ slot ≠ index, next.metas slot = cache.metas slot := by
    intro slot hslot
    rw [hmetas, update_of_ne hslot]
  have hself : next.metas index = ⟨key, 1⟩ := by rw [hmetas, update_self]
  refine ⟨?_, ?_, ?_, ?_⟩
  · intro slot
    rw [hhandles, Multiset.countP_cons, ← haccounted.refs_eq]
    by_cases hslot : slot = index
    · simp [hslot, hself, hrefs]
    · simp [hother slot hslot, Ne.symm hslot]
  · intro handle hmem
    rw [hhandles, Multiset.mem_cons] at hmem
    rcases hmem with rfl | hmem
    · rw [hself]
    · have hne : handle.index ≠ index := by
        intro heq
        have hpos := haccounted.refs_pos hmem
        rw [heq, hrefs] at hpos
        exact lt_irrefl 0 hpos
      rw [hother _ hne]
      exact haccounted.key_eq handle hmem
  · intro left right hleft hright heq
    by_cases hl : left = index
    · by_cases hr : right = index
      · rw [hl, hr]
      · rw [hl, hself, hother right hr] at heq
        rw [hother right hr] at hright
        exact absurd heq.symm (hfresh right hright)
    · by_cases hr : right = index
      · rw [hr, hself, hother left hl] at heq
        rw [hother left hl] at hleft
        exact absurd heq (hfresh left hleft)
      · rw [hother left hl] at hleft heq
        rw [hother right hr] at hright heq
        exact haccounted.distinct left right hleft hright heq
  · intro slot
    rw [hhandles, hdatas, haccounted.locked_eq, Multiset.countP_cons]
    simp [Phase.holds]

/-- A handle that enters another phase takes the lock with it. -/
theorem pass (haccounted : Accounted cache) {phase : Phase}
    (hmem : handle ∈ cache.handles) (hmetas : next.metas = cache.metas)
    (hother : ∀ index ≠ handle.index, (next.datas index).locked = (cache.datas index).locked)
    (hlocked : (next.datas handle.index).locked.toNat + handle.phase.holds.toNat =
        (cache.datas handle.index).locked.toNat + phase.holds.toNat) (hhandles : next.handles =
      { handle with phase := phase } ::ₘ cache.handles.erase handle) : Accounted next := by
  have hcons := Multiset.cons_erase hmem
  refine ⟨?_, ?_, ?_, ?_⟩
  · intro slot
    rw [hhandles, hmetas, haccounted.refs_eq, Multiset.countP_cons]
    conv_lhs => rw [← hcons, Multiset.countP_cons]
  · intro member hmember
    rw [hhandles, Multiset.mem_cons] at hmember
    rw [hmetas]
    rcases hmember with rfl | hmember
    · exact haccounted.key_eq handle hmem
    · exact haccounted.key_eq member (Multiset.mem_of_mem_erase hmember)
  · rw [hmetas]
    exact haccounted.distinct
  · intro slot
    have hcount := haccounted.locked_eq slot
    rw [← hcons, Multiset.countP_cons] at hcount
    rw [hhandles, Multiset.countP_cons]
    by_cases hslot : handle.index = slot
    · subst hslot
      cases hold : handle.phase.holds <;> cases hnew : phase.holds <;>
        simp_all
    · rw [hother slot (Ne.symm hslot)]
      simpa [hslot] using hcount

/-- A handle that is dropped. -/
theorem retire (haccounted : Accounted cache) (hmem : handle ∈ cache.handles)
    (hholds : handle.phase.holds = false) (hmetas : next.metas = update cache.metas handle.index
      { cache.metas handle.index with
        refs := (cache.metas handle.index).refs - 1 })
    (hlocked : ∀ index, (next.datas index).locked = (cache.datas index).locked)
    (hhandles : next.handles = cache.handles.erase handle) :
    Accounted next := by
  have hcons := Multiset.cons_erase hmem
  have hkey : ∀ slot, (next.metas slot).key = (cache.metas slot).key := by
    intro slot
    rw [hmetas]
    by_cases hslot : slot = handle.index
    · rw [hslot, update_self]
    · rw [update_of_ne hslot]
  have hrefs : ∀ slot, (next.metas slot).refs ≤ (cache.metas slot).refs := by
    intro slot
    rw [hmetas]
    by_cases hslot : slot = handle.index
    · rw [hslot, update_self]
      exact Nat.sub_le _ _
    · rw [update_of_ne hslot]
  refine ⟨?_, ?_, ?_, ?_⟩
  · intro slot
    have hcount := haccounted.refs_eq slot
    rw [← hcons, Multiset.countP_cons] at hcount
    rw [hhandles, hmetas]
    by_cases hslot : slot = handle.index
    · subst hslot
      rw [if_pos rfl] at hcount
      rw [update_self]
      change (cache.metas handle.index).refs - 1 = _
      omega
    · rw [update_of_ne hslot]
      simpa [Ne.symm hslot] using hcount
  · intro member hmember
    rw [hhandles] at hmember
    rw [hkey]
    exact haccounted.key_eq member (Multiset.mem_of_mem_erase hmember)
  · intro left right hleft hright heq
    rw [hkey, hkey] at heq
    exact haccounted.distinct left right (hleft.trans_le (hrefs left))
      (hright.trans_le (hrefs right)) heq
  · intro slot
    have hcount := haccounted.locked_eq slot
    rw [← hcons, Multiset.countP_cons] at hcount
    rw [hlocked, hhandles]
    simpa [hholds] using hcount

/-- Meta data, locks and handles as they were. -/
theorem keep (haccounted : Accounted cache) (hmetas : next.metas = cache.metas)
    (hlocked : ∀ index, (next.datas index).locked = (cache.datas index).locked)
    (hhandles : next.handles = cache.handles) : Accounted next := by
  refine ⟨?_, ?_, ?_, ?_⟩
  · rw [hmetas, hhandles]
    exact haccounted.refs_eq
  · rw [hmetas, hhandles]
    exact haccounted.key_eq
  · rw [hmetas]
    exact haccounted.distinct
  · intro slot
    rw [hlocked, hhandles]
    exact haccounted.locked_eq slot

/-- The data of the handle's slot change together with its phase. -/
theorem enter (haccounted : Accounted cache) (phase : Phase) {data : Data}
    (hmem : handle ∈ cache.handles) (hlocked : data.locked.toNat + handle.phase.holds.toNat =
      (cache.datas handle.index).locked.toNat + phase.holds.toNat) :
    Accounted ((cache.setData handle.index data).enter handle phase) := by
  refine haccounted.pass hmem rfl ?_ ?_ rfl
  · intro index hindex
    change (update cache.datas handle.index data index).locked = _
    rw [update_of_ne hindex]
  · change (update cache.datas handle.index data handle.index).locked.toNat + _ = _
    rwa [update_self]

/-- Changing the data of a slot under its lock. -/
theorem setData (haccounted : Accounted cache) {index : Slot} {data : Data}
    (hlocked : data.locked = (cache.datas index).locked) :
    Accounted (cache.setData index data) := by
  refine haccounted.keep rfl ?_ rfl
  intro slot
  change (update cache.datas index data slot).locked = _
  by_cases hslot : slot = index
  · rw [hslot, update_self, hlocked]
  · rw [update_of_ne hslot]

theorem store (haccounted : Accounted cache) (key : Key)
    (dinode : DiskInode) : Accounted (cache.store key dinode) :=
  haccounted.keep rfl (fun _ => rfl) rfl

theorem retire_ok (haccounted : Accounted cache)
    (hmem : handle ∈ cache.handles) (hholds : handle.phase.holds = false)
    (hretire : cache.retire handle = .ok next) : Accounted next := by
  unfold Cache.retire at hretire
  split at hretire
  · cases hretire
  · cases hretire
    exact haccounted.retire hmem hholds rfl (fun _ => rfl) rfl

theorem get (haccounted : Accounted cache) {key : Key}
    (hget : cache.get key = .ok next) : Accounted next := by
  unfold Cache.get at hget
  split at hget
  · next index hfind =>
      obtain ⟨rfl, hrefs⟩ := Cache.find_eq_some hfind
      cases hget
      exact haccounted.share hrefs rfl rfl rfl
  · next hfind =>
      split at hget
      · next index hvacant =>
          split at hget
          · cases hget
          · split at hget
            · cases hget
            · cases hget
              exact haccounted.occupy (Cache.vacant_eq_some hvacant)
                (Cache.find_eq_none hfind) rfl rfl rfl
      · cases hget

theorem put (haccounted : Accounted cache) (hmem : handle ∈ cache.handles)
    (hphase : handle.phase = .free) (hput : cache.put handle = .ok next) : Accounted next := by
  have hholds : handle.phase.holds = false := by
    rw [hphase]
    rfl
  simp only [Cache.put] at hput
  split at hput
  · split at hput
    · cases hput
    · next hlocked =>
        split at hput
        · refine retire_ok (haccounted.setData ?_) hmem hholds hput
          rfl
        · cases hput
          apply haccounted.enter .truncating hmem
          rw [hphase]
          simp [hlocked, Phase.holds]
  · exact haccounted.retire_ok hmem hholds hput

end Accounted

theorem accounted_step (cache : Cache) (action : Action) (next : Cache)
    (haccounted : Accounted cache) (_ : True)
    (hstep : cache.step action = some next) : Accounted next := by
  obtain ⟨hready, hattempt⟩ := Cache.step_eq_some hstep
  have hheld : ∀ handle ∈ cache.handles, handle.phase.holds = true →
      (cache.datas handle.index).locked.toNat = 1 := by
    intro handle hmem hholds
    rw [haccounted.locked_of_holds hmem hholds]
    rfl
  cases action with
  | get key => exact haccounted.get hattempt
  | clone handle =>
    obtain ⟨hmem, -⟩ := hready
    cases hattempt
    refine haccounted.share (haccounted.refs_pos hmem) rfl rfl ?_
    rw [haccounted.key_eq handle hmem]
    rfl
  | lock handle =>
    obtain ⟨hmem, hphase⟩ := hready
    simp only [Cache.attempt, Cache.lock] at hattempt
    split at hattempt
    · cases hattempt
    · next hlocked =>
        cases hattempt
        apply haccounted.enter _ hmem
        split <;> simp [hphase, hlocked, Phase.holds]
  | load handle =>
    obtain ⟨hmem, hphase⟩ := hready
    simp only [Cache.attempt, Cache.load] at hattempt
    split at hattempt
    · cases hattempt
    · cases hattempt
      apply haccounted.enter _ hmem
      rw [hheld handle hmem (by rw [hphase]; rfl), hphase]
      rfl
  | edit handle dinode =>
    cases hattempt
    exact haccounted.setData rfl
  | update handle =>
    cases hattempt
    exact haccounted.store _ _
  | unlock handle | release handle =>
    obtain ⟨hmem, hphase⟩ := hready
    cases hattempt
    apply haccounted.enter _ hmem
    rw [hheld handle hmem (by rw [hphase]; rfl), hphase]
    rfl
  | put handle => exact haccounted.put hready.1 hready.2 hattempt
  | truncate handle =>
    obtain ⟨hmem, hphase⟩ := hready
    cases hattempt
    refine (haccounted.enter .truncated hmem ?_).store _ _
    rw [hphase]
    rfl
  | leave handle =>
    obtain ⟨hmem, hphase⟩ := hready
    exact haccounted.retire_ok hmem (by rw [hphase]; rfl) hattempt
  | alloc key itype =>
    simp only [Cache.attempt] at hattempt
    split at hattempt
    · cases hattempt
      exact haccounted.store _ _
    · cases hattempt
      exact haccounted

/-- What the processes rely on: counts and keys are those of the live handles,
no inode is cached twice, and neither `get` nor `put` has to wait for a sleep
lock while it holds the meta lock. -/
structure Sound (cache : Cache) : Prop where
  refs_eq : ∀ index, (cache.metas index).refs =
    cache.handles.countP fun handle => handle.index = index
  key_eq : ∀ handle ∈ cache.handles, (cache.metas handle.index).key = handle.key
  distinct : ∀ left right, 0 < (cache.metas left).refs → 0 < (cache.metas right).refs →
    (cache.metas left).key = (cache.metas right).key → left = right
  get_awake : ∀ key, cache.get key ≠ .error .sleep
  put_awake : ∀ handle ∈ cache.handles, handle.phase = .free → cache.put handle ≠ .error .sleep

theorem Accounted.sound {cache : Cache} (haccounted : Accounted cache) :
    Sound cache where
  refs_eq := haccounted.refs_eq
  key_eq := haccounted.key_eq
  distinct := haccounted.distinct
  get_awake := by
    intro key
    unfold Cache.get
    split
    · nofun
    · split
      · next index hvacant =>
          rw [haccounted.locked_of_refs_zero (Cache.vacant_eq_some hvacant)]
          split
          · contradiction
          · split <;> nofun
      · nofun
  put_awake := by
    intro handle hmem hphase
    have hretire : ∀ other : Cache, other.retire handle ≠ .error .sleep := by
      intro other
      unfold Cache.retire
      split <;> nofun
    simp only [Cache.put]
    split
    · next hrefs =>
        rw [haccounted.locked_of_refs_one hmem (by rw [hphase]; rfl) hrefs]
        split
        · contradiction
        · split
          · exact hretire _
          · nofun
    · exact hretire _

/-- Every run from boot, with any number of handles and processes, keeps the
cache sound. -/
theorem run_sound {disk : Key → DiskInode} {last : Cache} {record : List (Cache × Action)}
    (hrun : Run Cache.step (Cache.boot disk) record last) :
    Sound last ∧ ∀ entry ∈ record, Sound entry.1 := by
  obtain ⟨hlast, hrecord⟩ := hrun.invariant accounted_step (accounted_boot disk) fun _ _ => trivial
  exact ⟨hlast.sound, fun entry hentry => (hrecord entry hentry).sound⟩

/-- A handle is made and cloned, the clone is locked and loads the inode. -/
theorem run_sound_clone : ∃ record last,
    Run Cache.step (Cache.boot fun _ => { DiskInode.new with itype := .file })
      record last ∧ record.map Prod.snd =
        [.get ⟨1, 5⟩, .clone ⟨⟨1, 5⟩, 0, .free⟩, .lock ⟨⟨1, 5⟩, 0, .free⟩,
          .load ⟨⟨1, 5⟩, 0, .loading⟩] ∧ (last.metas 0).refs = 2 ∧ Sound last := by
  have hrun : Run Cache.step (Cache.boot fun _ => { DiskInode.new with itype := .file })
      [(_, .get ⟨1, 5⟩), (_, .clone ⟨⟨1, 5⟩, 0, .free⟩),
        (_, .lock ⟨⟨1, 5⟩, 0, .free⟩), (_, .load ⟨⟨1, 5⟩, 0, .loading⟩)] _ :=
    .step rfl (.step rfl (.step rfl (.step rfl (.done _))))
  exact ⟨_, _, hrun, rfl, rfl, (run_sound hrun).1⟩

end RxOs.InodeCache
