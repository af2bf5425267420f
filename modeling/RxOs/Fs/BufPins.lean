import RxOs.Fs.BufCounts

/-!
# Pins of the buffer cache over whole runs

What the agreement of the reference counts means for a run: outside commits a
count is the number of buffers in use plus one for a logged block, the panics
over reference counts are out of reach, and pins and unpins of a slot balance.
-/

namespace RxOs.BufPins

open Function Params LogState Transition LogMachine BufCache BufCounts
open BufControl (BufLru Slot)
open BufControl.BufLru (findCached_eq_some recycle_eq_some moveIfNoRef_eq_some)

variable {Proc : Type*} [DecidableEq Proc]

/-- The reference counts of one state, and the panics that they rule out. -/
structure Matched (cache : Cache Proc) : Prop where
  refcnt_eq : cache.machine.log.commiting = false → ∀ slot,
    cache.lru.refcnt slot = cache.users slot +
      if cache.lru.dev slot = cache.dev ∧ cache.lru.blockno slot ∈ cache.logged then 1 else 0
  unpin_ok : ∀ action, cache.attempt action ≠ .error .unpinNotMatch
  release_ok : ∀ action, cache.attempt action ≠ .error .refcntUnderflow

omit [DecidableEq Proc] in
theorem whenever_eq_error {condition : Prop} [Decidable condition]
    {after : Cache Proc} {halt : Halt} (hstep : Cache.whenever condition after = .error halt) :
    halt = .blocked := by
  unfold Cache.whenever at hstep
  split at hstep
  · cases hstep
  · cases hstep
    rfl

theorem logStep_eq_error {cache : Cache Proc} {condition : Prop}
    [Decidable condition] {action : LogProtocol.Action Proc}
    {after : Machine Proc → Cache Proc} {halt : Halt}
    (hstep : cache.logStep condition action after = .error halt) : halt = .blocked := by
  unfold Cache.logStep at hstep
  split at hstep
  · exact whenever_eq_error hstep
  · cases hstep
    rfl

/-- The only places where a step panics over a reference count. -/
theorem attempt_eq_error {cache : Cache Proc} {action : Action Proc}
    {halt : Halt} (hstep : cache.attempt action = .error halt) :
    halt = .blocked ∨ halt = .noUsableBuffer ∨ (∃ diskBuf count, cache.progress = .installed count ∧
        cache.Has diskBuf.proc diskBuf ∧ cache.logged[count]? = some diskBuf.blockno ∧
        cache.lru.refcnt diskBuf.index ≤ 1) ∨
      ∃ buf ∈ cache.handles, cache.lru.moveIfNoRef buf.index = none := by
  cases action with
  | get proc dev blockno =>
    simp only [Cache.attempt, Cache.get] at hstep
    split at hstep
    · cases hstep
    · split at hstep
      · cases hstep
      · cases hstep
        exact .inr (.inl rfl)
  | release buf =>
    simp only [Cache.attempt, Cache.release] at hstep
    split at hstep
    · next hready =>
        split at hstep
        · cases hstep
        · next hmove => exact .inr (.inr (.inr ⟨buf, hready.1, hmove⟩))
    · cases hstep
      exact .inl rfl
  | loadRefcnt diskBuf =>
    simp only [Cache.attempt, Cache.loadRefcnt] at hstep
    split at hstep
    · next count hprogress =>
        split at hstep
        · next hready =>
            split at hstep
            · next hle =>
                exact .inr (.inr (.inl ⟨diskBuf, count, hprogress, hready.1, hready.2.2, hle⟩))
            · cases hstep
        · cases hstep
          exact .inl rfl
    · cases hstep
      exact .inl rfl
  | pin buf =>
    simp only [Cache.attempt, Cache.pin] at hstep
    split at hstep
    · exact .inl (logStep_eq_error hstep)
    · cases hstep
      exact .inl rfl
  | unpin diskBuf =>
    simp only [Cache.attempt, Cache.unpin] at hstep
    split at hstep
    · split at hstep
      · exact .inl (whenever_eq_error hstep)
      · cases hstep
        exact .inl rfl
    · cases hstep
      exact .inl rfl
  | writeLog | writeHead | install =>
    simp only [Cache.attempt] at hstep
    split at hstep
    · exact .inl (whenever_eq_error hstep)
    · cases hstep
      exact .inl rfl
  | logWrite | beginOp | endOp | emptyHead | skip | finish => exact .inl (logStep_eq_error hstep)
  | _ => exact .inl (whenever_eq_error hstep)

/-- A step never panics over a reference count. -/
theorem attempt_ne {cache : Cache Proc} (hcounted : Counted cache)
    {action : Action Proc} {halt : Halt} (hblocked : halt ≠ .blocked)
    (hbuffer : halt ≠ .noUsableBuffer) : cache.attempt action ≠ .error halt := by
  intro hstep
  rcases attempt_eq_error hstep with heq | heq | hunpin | hrelease
  · exact hblocked heq
  · exact hbuffer heq
  · obtain ⟨diskBuf, count, hprogress, ⟨hmem, -, -, hdev⟩, hhome, hle⟩ := hunpin
    have hshare := hcounted.share_eq_one hmem hdev (mem_pinned hprogress hhome)
    have husers := Counted.users_pos hmem
    have hcount := hcounted.refcnt_eq diskBuf.index
    omega
  · obtain ⟨buf, hmem, hmove⟩ := hrelease
    have husers := Counted.users_pos hmem
    have hcount := hcounted.refcnt_eq buf.index
    have hpos : cache.lru.refcnt buf.index ≠ 0 := by omega
    simp only [BufLru.moveIfNoRef, if_neg hpos] at hmove
    split at hmove
    · cases hmove
    · cases hmove

theorem matched_of_counted {cache : Cache Proc} (hcounted : Counted cache) :
    Matched cache where
  refcnt_eq := by
    intro hflag slot
    have hunpinned := Progress.unpinned_of_atRest (hcounted.rest hflag)
    rw [hcounted.refcnt_eq, Cache.share, Cache.pinned, hunpinned, List.drop_zero]
  unpin_ok := fun _ => attempt_ne hcounted nofun nofun
  release_ok := fun _ => attempt_ne hcounted nofun nofun

def pins (slot : Slot) : Action Proc → ℕ
  | .pin buf => if buf.index = slot then 1 else 0
  | _ => 0

def unpins (slot : Slot) : Action Proc → ℕ
  | .unpin diskBuf => if diskBuf.index = slot then 1 else 0
  | _ => 0

theorem users_enter {cache : Cache Proc} {buf : Handle Proc} {phase : Phase}
    (hmem : buf ∈ cache.handles) (slot : Slot) :
    (cache.enter buf phase).users slot = cache.users slot := by
  have hcons := Multiset.cons_erase hmem
  rw [Cache.users, Cache.users, Cache.enter, Multiset.countP_cons]
  conv_rhs => rw [← hcons, Multiset.countP_cons]

/-- The log's references change by the pins and the unpins. -/
theorem share_step (slot : Slot) (cache : Cache Proc) (action : Action Proc)
    (next : Cache Proc) (hcounted : Counted cache)
    (hadmitted : Apart cache action ∧ OnDevice cache action)
    (hstep : cache.step action = some next) :
    next.share slot + unpins slot action = cache.share slot + pins slot action := by
  have hbefore := hcounted.refcnt_eq slot
  have hafter := (counted_step cache action next hcounted hadmitted hstep).refcnt_eq slot
  have hsame : next.lru.refcnt slot = cache.lru.refcnt slot →
      next.users slot = cache.users slot →
        next.share slot = cache.share slot := by
    intro hrefcnt husers
    omega
  have hget : ∀ index, next.lru.refcnt =
        update cache.lru.refcnt index (cache.lru.refcnt index + 1) →
      next.users slot = cache.users slot + (if index = slot then 1 else 0) →
        next.share slot = cache.share slot := by
    intro index hrefcnt husers
    rw [hrefcnt, husers, update_add_one] at hafter
    omega
  cases Cache.step_effect hstep with
  | @hit proc dev blockno index lru hfind =>
    obtain ⟨-, -, rfl⟩ := findCached_eq_some hcounted.complete hfind
    exact hget index rfl (Multiset.countP_cons _ _ _)
  | @miss proc dev blockno index lru hfind hrecycle =>
    obtain ⟨hzero, rfl⟩ := recycle_eq_some hcounted.complete hrecycle
    refine hget index ?_ (Multiset.countP_cons _ _ _)
    rw [hzero]
  | @release buf lru hmem hphase hmove =>
    obtain ⟨hpos, -, -, -, hrefcnt⟩ := moveIfNoRef_eq_some hcounted.complete hmove
    have hdown := update_sub_one hpos slot
    change lru.refcnt slot = Multiset.countP _ (cache.handles.erase buf) + _ at hafter
    rw [hrefcnt] at hafter
    rw [Cache.users, ← Multiset.cons_erase hmem, Multiset.countP_cons] at hbefore
    change Cache.share _ slot + 0 = cache.share slot + 0
    omega
  | @pin buf refcnt machine hmem hphase hmoves =>
    have husers : (cache.enter buf .dropping).users slot = cache.users slot := users_enter hmem slot
    have hloaded := hcounted.pending buf hmem refcnt (by rw [hphase]; rfl)
    have hup := update_add_one cache.lru.refcnt buf.index slot
    rw [hloaded] at hup
    change update cache.lru.refcnt buf.index (refcnt + 1) slot =
      (cache.enter buf .dropping).users slot + _ at hafter
    change Cache.share _ slot + 0 = cache.share slot + if buf.index = slot then 1 else 0
    omega
  | @unpin diskBuf refcnt count hprogress hmem hphase hdev hreads hhome =>
    have husers : (cache.enter diskBuf .loaded).users slot =
        cache.users slot := users_enter hmem slot
    have hloaded := hcounted.pending diskBuf hmem refcnt (by rw [hphase]; rfl)
    have hpos : 0 < cache.lru.refcnt diskBuf.index := by
      rw [hcounted.refcnt_eq]
      exact Nat.add_pos_left (Counted.users_pos hmem) _
    have hdown := update_sub_one hpos slot
    rw [hloaded] at hdown
    change update cache.lru.refcnt diskBuf.index (refcnt - 1) slot =
      (cache.enter diskBuf .loaded).users slot + _ at hafter
    change Cache.share _ slot + (if diskBuf.index = slot then 1 else 0) = cache.share slot + 0
    omega
  | @load buf hmem hphase =>
    refine hsame ?_ ?_
    · unfold Cache.load
      split
      · rfl
      · rfl
    · unfold Cache.load
      split
      · exact users_enter hmem slot
      · exact users_enter hmem slot
  | lock hmem | store hmem | absorb hmem | loadPin hmem | unlock hmem =>
    exact hsame rfl (users_enter hmem slot)
  | loadRefcnt hprogress hdisk => exact hsame rfl (users_enter hdisk.1 slot)
  | _ => exact hsame rfl rfl

/-- Every run of steps that keep apart: the counts match in every state, and
each slot has been unpinned once for every time it was pinned, except that a
block which is still to be installed keeps its pin. -/
theorem run_matched {dev : UInt32} (hdev : dev ≠ 0) {start size : ℕ}
    {disk : UInt32 → Block} {last : Cache Proc} {record : List (Cache Proc × Action Proc)}
    (hrun : Run Cache.step (Cache.boot Proc dev start size disk) record last)
    (hadmitted : ∀ entry ∈ record, Apart entry.1 entry.2 ∧ OnDevice entry.1 entry.2) :
    (Matched last ∧ ∀ entry ∈ record, Matched entry.1) ∧
    ∀ slot, (record.map fun entry => pins slot entry.2).sum =
      (record.map fun entry => unpins slot entry.2).sum + last.share slot := by
  have hboot : Counted (Cache.boot Proc dev start size disk) := counted_boot hdev start size disk
  obtain ⟨hlast, hrecord⟩ := hrun.invariant counted_step hboot hadmitted
  refine ⟨⟨matched_of_counted hlast,
    fun entry hentry => matched_of_counted (hrecord entry hentry)⟩, ?_⟩
  intro slot
  have hledger := hrun.ledger counted_step (share_step slot) hboot hadmitted
  have hzero : (Cache.boot Proc dev start size disk).share slot = 0 :=
    if_neg fun hkey => hdev hkey.1.symm
  omega

/-! ### A transaction -/

instance (cache : Cache Proc) (action : Action Proc) : Decidable (Apart cache action) := by
  unfold Apart
  split <;> infer_instance

instance (cache : Cache Proc) (action : Action Proc) : Decidable (OnDevice cache action) := by
  unfold OnDevice
  split <;> infer_instance

def bufAt (proc : ℕ) (index : Slot) (blockno : UInt32) (phase : Phase) : Handle ℕ :=
  ⟨proc, index, 1, blockno, phase⟩

/-- `BCache::read` of a block that ends up in the given slot. -/
def readActions (proc : ℕ) (index : Slot) (blockno : UInt32) : List (Action ℕ) :=
  [.get proc 1 blockno, .lock (bufAt proc index blockno .waiting),
    .load (bufAt proc index blockno .locked)]

def dropActions (proc : ℕ) (index : Slot) (blockno : UInt32) (phase : Phase) : List (Action ℕ) :=
  [.unlock (bufAt proc index blockno phase), .release (bufAt proc index blockno .leaving)]

/-- One process changes and logs block 50, with nobody else referring to it. -/
def changeActions (block : Block) : List (Action ℕ) :=
  [[.recovered, .beginOp 0], readActions 0 29 50,
    [.store (bufAt 0 29 50 .loaded) block, .logWrite (bufAt 0 29 50 .dirty),
      .pin (bufAt 0 29 50 (.pinning 1))], dropActions 0 29 50 .dropping].flatten

/-- The commit that follows, with the log area at block 2. -/
def commitActions : List (Action ℕ) :=
  [[.endOp 0], readActions 0 28 3, readActions 0 29 50,
    [.writeLog (bufAt 0 29 50 .loaded) (bufAt 0 28 3 .loaded)],
    dropActions 0 29 50 .loaded, dropActions 0 28 3 .loaded,
    readActions 0 27 2, [.writeHead (bufAt 0 27 2 .loaded)], dropActions 0 27 2 .loaded,
    readActions 0 28 3, readActions 0 29 50,
    [.install (bufAt 0 28 3 .loaded) (bufAt 0 29 50 .loaded), .loadRefcnt (bufAt 0 29 50 .loaded),
      .unpin (bufAt 0 29 50 (.unpinning 2))],
    dropActions 0 28 3 .loaded, dropActions 0 29 50 .loaded,
    [.emptyHead 0], readActions 0 27 2, [.clearHead (bufAt 0 27 2 .loaded)],
    dropActions 0 27 2 .loaded, [.finish 0]].flatten

/-- A whole transaction: the slot was pinned once, is not pinned any more and
has been unpinned once. -/
theorem run_matched_transaction : ∃ record last,
    Run Cache.step (Cache.boot ℕ 1 2 30 fun _ _ => 0) record last ∧
    last.logged = [] ∧ Matched last ∧ (record.map fun entry => pins 29 entry.2).sum = 1 ∧
    (record.map fun entry => unpins 29 entry.2).sum = 1 := by
  have hruns : ((changeActions (fun _ => 1) ++ commitActions).foldlM
      (guarded (fun cache action => Apart cache action ∧ OnDevice cache action) Cache.step)
      (Cache.boot ℕ 1 2 30 fun _ _ => 0)).any (fun cache =>
        cache.logged = [] ∧ cache.share 29 = 0) = true := by decide +kernel
  obtain ⟨record, last, hrun, hactions, hadmitted, hlogged, hshare⟩ := Run.of_any_admitted hruns
  obtain ⟨⟨hmatched, -⟩, hpins⟩ := run_matched (by decide) hrun hadmitted
  have hpinned : (record.map fun entry => pins 29 entry.2).sum = 1 := by
    have hmap : (record.map fun entry => pins 29 entry.2) =
        (record.map Prod.snd).map (pins 29) := by
      rw [List.map_map]
      rfl
    rw [hmap, hactions]
    decide +kernel
  refine ⟨record, last, hrun, hlogged, hmatched, hpinned, ?_⟩
  have hcount := hpins 29
  rw [hshare] at hcount
  omega

/-- Block 0 of the log's device is logged. -/
def logZeroActions : List (Action ℕ) :=
  [[.recovered, .beginOp 0], readActions 0 29 0, [.logWrite (bufAt 0 29 0 .loaded),
      .pin (bufAt 0 29 0 (.pinning 1))]].flatten

/-- The counts compare whole keys: a slot that stands for block 0 of another
device, as every slot does at first, is not pinned when block 0 of the log's
device is logged. -/
theorem exists_run_unpinned : ∃ record last,
    Run Cache.step (Cache.boot ℕ 1 2 30 fun _ _ => 0) record last ∧
    (∀ entry ∈ record, Apart entry.1 entry.2 ∧ OnDevice entry.1 entry.2) ∧
    last.machine.log.commiting = false ∧ ¬∀ slot, last.lru.refcnt slot = last.users slot +
      if last.lru.blockno slot ∈ last.logged then 1 else 0 := by
  have hruns : (logZeroActions.foldlM
      (guarded (fun cache action => Apart cache action ∧ OnDevice cache action) Cache.step)
      (Cache.boot ℕ 1 2 30 fun _ _ => 0)).any (fun cache =>
        cache.machine.log.commiting = false ∧ cache.lru.refcnt 0 = 0 ∧ cache.users 0 = 0 ∧
          cache.lru.blockno 0 ∈ cache.logged) = true := by decide +kernel
  obtain ⟨record, last, hrun, -, hadmitted, hflag, hrefcnt, husers, hlisted⟩ :=
    Run.of_any_admitted hruns
  refine ⟨record, last, hrun, hadmitted, hflag, ?_⟩
  intro hall
  have hslot := hall 0
  rw [hrefcnt, husers, if_pos hlisted] at hslot
  cases hslot

end RxOs.BufPins
