import RxOs.Fs.InodeCache

/-!
# Slots of the inode cache that are used again

`InodeCache::get` asserts that a slot it takes into use is not valid.  A `put`
that truncates clears the flag, releases the sleep lock, and only then takes the
meta lock to give its reference up.  In between another process can be given the
same inode number, load the slot and drop its handle, which is then not the last
one; the final decrement leaves a valid slot without references.
-/

namespace RxOs.InodeReload

open Function Params Dinode Transition InodeCache
open Kernel (Slot)

/-- No slot without references is valid, so the assertion in `get` holds. -/
structure Clean (cache : Cache) : Prop where
  invalid : ∀ index, (cache.metas index).refs = 0 → (cache.datas index).valid = false
  get_assert : ∀ key, cache.get key ≠ .error (.panic .inodeCacheValid)

/-- A truncating `put` gives up the last reference to its slot, but another
process has loaded the slot since that `put` released the sleep lock. -/
def Reloaded (cache : Cache) : Action → Prop
  | .leave handle => (cache.metas handle.index).refs = 1 ∧ (cache.datas handle.index).valid = true
  | _ => False

instance (cache : Cache) (action : Action) : Decidable (Reloaded cache action) := by
  unfold Reloaded
  split <;> infer_instance

theorem clean_iff {cache : Cache} :
    Clean cache ↔ ∀ index, (cache.metas index).refs = 0 → (cache.datas index).valid = false := by
  refine ⟨Clean.invalid, fun hinvalid => ⟨hinvalid, ?_⟩⟩
  intro key
  unfold Cache.get
  split
  · nofun
  · split
    · next index hvacant =>
        rw [hinvalid index (Cache.vacant_eq_some hvacant)]
        split
        · nofun
        · split
          · contradiction
          · nofun
    · nofun

namespace Clean

variable {cache next : Cache} {handle : Handle}

/-- A step that keeps the counts of unreferenced slots and makes no
unreferenced slot valid. -/
theorem of_step (hclean : Clean cache) (hstep : ∀ index, (next.metas index).refs = 0 →
      (next.datas index).valid = true → (cache.metas index).refs = 0 ∧
        (cache.datas index).valid = true) : Clean next := by
  rw [clean_iff]
  intro index hrefs
  by_contra hvalid
  obtain ⟨hzero, hset⟩ := hstep index hrefs (by simpa using hvalid)
  rw [hclean.invalid index hzero] at hset
  cases hset

theorem of_refs_le (hclean : Clean cache)
    (hrefs : ∀ index, (cache.metas index).refs ≤ (next.metas index).refs)
    (hdatas : next.datas = cache.datas) : Clean next := by
  apply hclean.of_step
  intro index hzero hvalid
  refine ⟨Nat.le_zero.mp (hzero ▸ hrefs index), ?_⟩
  rwa [hdatas] at hvalid

/-- The data of a slot that is in use, or data that are not valid. -/
theorem setData (hclean : Clean cache) {index : Slot} {data : Data}
    (hdata : (cache.metas index).refs ≠ 0 ∨ data.valid = false) :
    Clean (cache.setData index data) := by
  apply hclean.of_step
  intro slot hzero hvalid
  change (cache.metas slot).refs = 0 at hzero
  change (update cache.datas index data slot).valid = true at hvalid
  by_cases hslot : slot = index
  · subst hslot
    rw [update_self] at hvalid
    rcases hdata with hrefs | hinvalid
    · exact absurd hzero hrefs
    · rw [hinvalid] at hvalid
      cases hvalid
  · rw [update_of_ne hslot] at hvalid
    exact ⟨hzero, hvalid⟩

theorem congr (hclean : Clean cache) (hmetas : next.metas = cache.metas)
    (hdatas : next.datas = cache.datas) : Clean next := by
  rw [clean_iff, hmetas, hdatas]
  exact hclean.invalid

/-- Giving up a reference keeps the cache clean unless it was the last one to
a slot that is valid. -/
theorem retire_iff (hclean : Clean cache) (hretire : cache.retire handle = .ok next) :
    Clean next ↔ ¬((cache.metas handle.index).refs = 1 ∧
      (cache.datas handle.index).valid = true) := by
  unfold Cache.retire at hretire
  split at hretire
  · cases hretire
  · next hpos =>
      cases hretire
      constructor
      · rintro hnext ⟨hone, hvalid⟩
        have hinvalid := hnext.invalid handle.index
        change (update cache.metas handle.index _ handle.index).refs = 0 →
          (cache.datas handle.index).valid = false at hinvalid
        rw [update_self, hone, hvalid] at hinvalid
        cases hinvalid rfl
      · intro hstale
        apply hclean.of_step
        intro slot hzero hvalid
        change (update cache.metas handle.index _ slot).refs = 0 at hzero
        change (cache.datas slot).valid = true at hvalid
        by_cases hslot : slot = handle.index
        · subst hslot
          rw [update_self] at hzero
          change (cache.metas handle.index).refs - 1 = 0 at hzero
          exact absurd ⟨by omega, hvalid⟩ hstale
        · rw [update_of_ne hslot] at hzero
          exact ⟨hzero, hvalid⟩

theorem get (hclean : Clean cache) {key : Key} (hget : cache.get key = .ok next) : Clean next := by
  have hupdate : ∀ index imeta, (cache.metas index).refs ≤ imeta.refs →
      ∀ slot, (cache.metas slot).refs ≤ (update cache.metas index imeta slot).refs := by
    intro index imeta hle slot
    by_cases hslot : slot = index
    · rwa [hslot, update_self]
    · rw [update_of_ne hslot]
  unfold Cache.get at hget
  split at hget
  · cases hget
    exact hclean.of_refs_le (hupdate _ _ (Nat.le_succ _)) rfl
  · split at hget
    · next index hvacant =>
        split at hget
        · cases hget
        · split at hget
          · cases hget
          · cases hget
            refine hclean.of_refs_le (hupdate _ _ ?_) rfl
            rw [Cache.vacant_eq_some hvacant]
            exact Nat.zero_le _
    · cases hget

theorem put (hclean : Clean cache) (haccounted : Accounted cache)
    (hmem : handle ∈ cache.handles) (hput : cache.put handle = .ok next) : Clean next := by
  have hpos := haccounted.refs_pos hmem
  simp only [Cache.put] at hput
  split at hput
  · split at hput
    · cases hput
    · split at hput
      · refine ((hclean.setData (.inr rfl)).retire_iff hput).mpr ?_
        rintro ⟨-, hvalid⟩
        change (update cache.datas _ _ _).valid = true at hvalid
        rw [update_self] at hvalid
        cases hvalid
      · cases hput
        exact (hclean.setData (.inl hpos.ne')).congr rfl rfl
  · next hrefs => exact (hclean.retire_iff hput).mpr fun hstale => hrefs hstale.1

end Clean

/-- A step leaves no valid slot unreferenced, except the one excluded. -/
theorem clean_step (cache : Cache) (action : Action) (next : Cache)
    (haccounted : Accounted cache) (hclean : Clean cache) (hstep : cache.step action = some next) :
    Clean next ↔ ¬Reloaded cache action := by
  obtain ⟨hready, hattempt⟩ := Cache.step_eq_some hstep
  have hused : ∀ handle ∈ cache.handles, (cache.metas handle.index).refs ≠ 0 :=
    fun handle hmem => (haccounted.refs_pos hmem).ne'
  cases action with
  | leave handle => exact hclean.retire_iff hattempt
  | get key => exact iff_of_true (hclean.get hattempt) not_false
  | clone handle =>
    cases hattempt
    refine iff_of_true (hclean.of_refs_le ?_ rfl) not_false
    intro slot
    change _ ≤ (update cache.metas handle.index _ slot).refs
    by_cases hslot : slot = handle.index
    · rw [hslot, update_self]
      exact Nat.le_succ _
    · rw [update_of_ne hslot]
  | lock handle | load handle =>
    simp only [Cache.attempt, Cache.lock, Cache.load] at hattempt
    split at hattempt
    · cases hattempt
    · cases hattempt
      exact iff_of_true ((hclean.setData (.inl (hused handle hready.1))).congr rfl rfl) not_false
  | edit handle dinode =>
    cases hattempt
    exact iff_of_true (hclean.setData (.inl (hused handle hready.1))) not_false
  | update handle =>
    cases hattempt
    exact iff_of_true (hclean.congr rfl rfl) not_false
  | unlock handle | truncate handle =>
    cases hattempt
    exact iff_of_true ((hclean.setData (.inl (hused handle hready.1))).congr rfl rfl) not_false
  | put handle => exact iff_of_true (hclean.put haccounted hready.1 hattempt) not_false
  | release handle =>
    cases hattempt
    exact iff_of_true ((hclean.setData (.inr rfl)).congr rfl rfl) not_false
  | alloc key itype =>
    simp only [Cache.attempt] at hattempt
    split at hattempt
    · cases hattempt
      exact iff_of_true (hclean.congr rfl rfl) not_false
    · cases hattempt
      exact iff_of_true hclean not_false

theorem clean_boot (disk : Key → DiskInode) : Clean (Cache.boot disk) :=
  clean_iff.mpr fun _ _ => rfl

/-- In a run from boot every slot without references stays invalid exactly if no
truncating `put` gives up the last reference to a slot that was loaded again
after it had released the sleep lock. -/
theorem run_clean_iff {disk : Key → DiskInode} {last : Cache} {record : List (Cache × Action)}
    (hrun : Run Cache.step (Cache.boot disk) record last) :
    (Clean last ∧ ∀ entry ∈ record, Clean entry.1) ↔ ∀ entry ∈ record, ¬Reloaded entry.1 entry.2 :=
  hrun.holds_iff (fun cache action next haccounted _ =>
      accounted_step cache action next haccounted trivial)
    clean_step (accounted_boot disk) (clean_boot disk)

/-! ## The window in `put` -/

def reused : Key := ⟨1, 5⟩

def linked : DiskInode := { DiskInode.new with itype := .file, nlink := 1 }

def inPhase (phase : Phase) : Handle := ⟨reused, 0, phase⟩

/-- One process removes the last link of the inode and drops its handle, up to
the point where the sleep lock is released. -/
def removal : List Action :=
  [.get reused, .lock (inPhase .free), .load (inPhase .loading),
    .edit (inPhase .guarded) { linked with nlink := 0 },
    .update (inPhase .guarded), .unlock (inPhase .guarded),
    .put (inPhase .free), .truncate (inPhase .truncating), .release (inPhase .truncated)]

/-- Another process creates a file, is given the number that has just become
free, and drops its handle; then the first one makes its last step. -/
def creation : List Action :=
  [.alloc reused .file, .get reused, .lock (inPhase .free),
    .load (inPhase .loading), .edit (inPhase .guarded) linked,
    .update (inPhase .guarded), .unlock (inPhase .guarded),
    .put (inPhase .free), .leave (inPhase .leaving)]

/-- Some run leaves a valid slot without references, and the next `get` of any
other inode fails its assertion. -/
theorem exists_run_not_clean :
    ¬∀ (disk : Key → DiskInode) (record : List (Cache × Action))
      (last : Cache), Run Cache.step (Cache.boot disk) record last → Clean last := by
  intro hclean
  have hfold : ((removal ++ creation).foldlM Cache.step
      (Cache.boot fun _ => linked)).any (fun cache =>
        match cache.get ⟨1, 6⟩ with
        | .error (.panic .inodeCacheValid) => true
        | _ => false) = true := by decide +kernel
  obtain ⟨last, hlast, hassert⟩ := Option.any_eq_true _ _ |>.mp hfold
  obtain ⟨record, hrun, -⟩ := Run.of_foldlM hlast
  have hget := (hclean _ record last hrun).get_assert ⟨1, 6⟩
  split at hassert
  · next hpanic => exact hget hpanic
  · cases hassert

/-- The first process alone does no harm. -/
theorem run_clean_removal : ∃ record last, Run Cache.step (Cache.boot fun _ => linked) record last ∧
      record.map Prod.snd = removal ++ [.leave (inPhase .leaving)] ∧ Clean last := by
  have hfold : ((removal ++ [Action.leave (inPhase .leaving)]).foldlM
      (guarded (fun cache action => ¬Reloaded cache action) Cache.step)
      (Cache.boot fun _ => linked)).isSome = true := by decide +kernel
  obtain ⟨last, hlast⟩ := Option.isSome_iff_exists.mp hfold
  obtain ⟨record, hrun, hactions, hadmitted⟩ := Run.of_foldlM_admitted hlast
  exact ⟨record, last, hrun, hactions, ((run_clean_iff hrun).mpr hadmitted).1⟩

end RxOs.InodeReload
