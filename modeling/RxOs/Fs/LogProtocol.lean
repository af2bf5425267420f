import RxOs.Core.Transition
import RxOs.Fs.LogState

/-!
# The log shared by many processes

The interleavings of `begin_op`, `Log::write`, `end_op` and the commit that the
last `end_op` starts.  Each step is one critical section of the `LOG` mutex, or
the part of `commit_no_lock` that empties the header without holding it.
-/

namespace RxOs.LogProtocol

open Function Params LogState Transition

/-- Where a process stands.  Inside an operation the blocks it has logged since
its `begin_op` are remembered. -/
inductive Phase
  | outside
  | inside (blocks : Finset UInt32)
  | committing
  | committed
  deriving DecidableEq

def Phase.commits : Phase → Bool
  | .committing | .committed => true
  | .outside | .inside _ => false

inductive Action (Proc : Type*)
  | beginOp (proc : Proc)
  | write (proc : Proc) (blockno : UInt32)
  | endOp (proc : Proc)
  | commit (proc : Proc)
  | release (proc : Proc)

structure System (Proc : Type*) where
  log : Log
  phase : Proc → Phase

variable {Proc : Type*} [DecidableEq Proc]

/-- One step.  A process that has to sleep in `begin_op` makes no step; a
process logs only inside its operation and at most `maxOpBlocks` distinct
blocks there. -/
def System.step (system : System Proc) :
    Action Proc → Option (System Proc)
  | .beginOp proc =>
    match system.phase proc, system.log.beginOp with
    | .outside, some log => some ⟨log, update system.phase proc (.inside ∅)⟩
    | _, _ => none
  | .write proc blockno =>
    match system.phase proc, system.log.write blockno with
    | .inside blocks, .ok log =>
      if (insert blockno blocks).card ≤ maxOpBlocks then
        some ⟨log, update system.phase proc (.inside (insert blockno blocks))⟩
      else none
    | _, _ => none
  | .endOp proc =>
    match system.phase proc, system.log.endOp with
    | .inside _, .ok (true, log) => some ⟨log, update system.phase proc .committing⟩
    | .inside _, .ok (false, log) => some ⟨log, update system.phase proc .outside⟩
    | _, _ => none
  | .commit proc =>
    match system.phase proc with
    | .committing => some ⟨system.log.emptied, update system.phase proc .committed⟩
    | _ => none
  | .release proc =>
    match system.phase proc with
    | .committed => some ⟨{ system.log with commiting := false }, update system.phase proc .outside⟩
    | _ => none

/-- Everything a step can do, with its guards. -/
theorem System.step_cases {system next : System Proc} {action : Action Proc}
    (hstep : system.step action = some next) :
    (∃ proc log, action = .beginOp proc ∧ system.phase proc = .outside ∧
      system.log.beginOp = some log ∧
      next = ⟨log, update system.phase proc (.inside ∅)⟩) ∨
    (∃ proc blockno blocks log, action = .write proc blockno ∧ system.phase proc = .inside blocks ∧
      (insert blockno blocks).card ≤ maxOpBlocks ∧ system.log.write blockno = .ok log ∧
      next = ⟨log, update system.phase proc (.inside (insert blockno blocks))⟩) ∨
    (∃ proc blocks last log, action = .endOp proc ∧ system.phase proc = .inside blocks ∧
      system.log.endOp = .ok (last, log) ∧
      next = ⟨log, update system.phase proc (if last then .committing else .outside)⟩) ∨
    (∃ proc, action = .commit proc ∧ system.phase proc = .committing ∧
      next = ⟨system.log.emptied, update system.phase proc .committed⟩) ∨
    (∃ proc, action = .release proc ∧ system.phase proc = .committed ∧
      next = ⟨{ system.log with commiting := false }, update system.phase proc .outside⟩) := by
  cases action with
  | beginOp proc =>
    left
    simp only [System.step] at hstep
    split at hstep
    · next log hphase hlog => exact ⟨proc, log, rfl, hphase, hlog, by simpa using hstep.symm⟩
    · simp at hstep
  | write proc blockno =>
    right; left
    simp only [System.step] at hstep
    split at hstep
    · next blocks log hphase hlog =>
        split at hstep
        · next hcard =>
            exact ⟨proc, blockno, blocks, log, rfl, hphase, hcard, hlog, by simpa using hstep.symm⟩
        · simp at hstep
    · simp at hstep
  | endOp proc =>
    right; right; left
    simp only [System.step] at hstep
    split at hstep
    · next blocks log hphase hlog =>
        exact ⟨proc, blocks, true, log, rfl, hphase, hlog, by simpa using hstep.symm⟩
    · next blocks log hphase hlog =>
        exact ⟨proc, blocks, false, log, rfl, hphase, hlog, by simpa using hstep.symm⟩
    · simp at hstep
  | commit proc =>
    right; right; right; left
    simp only [System.step] at hstep
    split at hstep
    · next hphase => exact ⟨proc, rfl, hphase, by simpa using hstep.symm⟩
    · simp at hstep
  | release proc =>
    right; right; right; right
    simp only [System.step] at hstep
    split at hstep
    · next hphase => exact ⟨proc, rfl, hphase, by simpa using hstep.symm⟩
    · simp at hstep

/-- The log after boot, on a log area of `size` blocks starting at `start`. -/
def System.initial (Proc : Type*) (start size : ℕ) : System Proc where
  log :=
    { start := start
      size := size
      outstanding := 0
      commiting := false
      lh := { len := 0, blocknos := fun _ => 0 } }
  phase := fun _ => .outside

/-! ## The flags of the log and the processes agree -/

/-- `active` are the processes inside an operation; a commit runs in at most
one process, with no operation open, and leaves the header empty. -/
structure Coherent (log : Log) (phase : Proc → Phase) (active : Finset Proc) :
    Prop where
  mem_active : ∀ proc, proc ∈ active ↔ ∃ blocks, phase proc = .inside blocks
  card_active : active.card = log.outstanding
  logged : ∀ proc blocks, phase proc = .inside blocks → ∀ blockno ∈ blocks, blockno ∈ log.lh.logged
  nodup : log.lh.logged.Nodup
  len_le : log.lh.len ≤ logSize - 1
  commiting : ∀ proc, (phase proc).commits → log.commiting = true
  committer : ∀ left right, (phase left).commits → (phase right).commits →
    left = right
  exclusive : log.commiting = true → log.outstanding = 0
  committed : ∀ proc, phase proc = .committed → log.lh.len = 0
  idle : log.outstanding = 0 → log.commiting = false → log.lh.len = 0

omit [DecidableEq Proc] in
theorem coherent_initial (start size : ℕ) :
    Coherent (System.initial Proc start size).log (System.initial Proc start size).phase ∅ where
  mem_active := by simp [System.initial]
  card_active := rfl
  logged := by simp [System.initial]
  nodup := by simp [System.initial, LogHeader.logged]
  len_le := by simp [System.initial]
  commiting := by simp [System.initial, Phase.commits]
  committer := by simp [System.initial, Phase.commits]
  exclusive := by simp [System.initial]
  committed := by simp [System.initial]
  idle := fun _ _ => rfl

section Steps

variable {log next : Log} {phase : Proc → Phase} {active : Finset Proc}
variable {proc : Proc}

omit [DecidableEq Proc] in
theorem Coherent.not_commits (hcoherent : Coherent log phase active)
    (hidle : log.commiting = false) (other : Proc) : (phase other).commits = false := by
  by_contra hcommits
  have hflag := hcoherent.commiting other (by simpa using hcommits)
  rw [hidle] at hflag
  cases hflag

theorem Coherent.beginOp (hcoherent : Coherent log phase active)
    (hphase : phase proc = .outside) (hbegin : log.beginOp = some next) :
    Coherent next (update phase proc (.inside ∅)) (insert proc active) := by
  obtain ⟨hcommiting, _, rfl⟩ := Log.beginOp_eq_some hbegin
  have hfresh : proc ∉ active := by
    rw [hcoherent.mem_active]
    rintro ⟨blocks, hblocks⟩
    rw [hphase] at hblocks
    cases hblocks
  have hcommits : ∀ other, (update phase proc (.inside ∅) other).commits = false := by
    intro other
    by_cases hother : other = proc
    · rw [hother, update_self]
      rfl
    · rw [update_of_ne hother]
      exact hcoherent.not_commits hcommiting other
  refine ⟨?_, ?_, ?_, hcoherent.nodup, hcoherent.len_le, ?_, ?_, ?_, ?_, ?_⟩
  · intro other
    by_cases hother : other = proc
    · simp [hother]
    · simp [hother, hcoherent.mem_active]
  · rw [Finset.card_insert_of_notMem hfresh, hcoherent.card_active]
  · intro other blocks hblocks blockno hmem
    by_cases hother : other = proc
    · subst hother
      rw [update_self, Phase.inside.injEq] at hblocks
      simp [← hblocks] at hmem
    · rw [update_of_ne hother] at hblocks
      exact hcoherent.logged other blocks hblocks blockno hmem
  · intro other hother
    simp [hcommits] at hother
  · intro left right hleft
    simp [hcommits] at hleft
  · intro hflag
    rw [hcommiting] at hflag
    cases hflag
  · intro other hother
    have := hcommits other
    rw [hother] at this
    cases this
  · intro hzero
    exact absurd hzero (Nat.succ_ne_zero _)

omit [DecidableEq Proc] in
theorem Coherent.commits_congr (hcoherent : Coherent log phase active) {after : Proc → Phase}
    (hcommits : ∀ proc, (after proc).commits = (phase proc).commits) :
    (∀ proc, (after proc).commits → log.commiting = true) ∧
      ∀ left right, (after left).commits → (after right).commits → left = right := by
  simp only [hcommits]
  exact ⟨hcoherent.commiting, hcoherent.committer⟩

/-- Logging a block adds it to the header unless it is there already. -/
theorem Coherent.write (hcoherent : Coherent log phase active)
    {blocks : Finset UInt32} {blockno : UInt32} (hphase : phase proc = .inside blocks)
    (hwrite : log.write blockno = .ok next) :
    Coherent next (update phase proc (.inside (insert blockno blocks)))
      active := by
  have hmem : ∀ other, (∃ found, update phase proc (.inside (insert blockno blocks)) other =
        .inside found) ↔ ∃ found, phase other = .inside found := by
    intro other
    by_cases hother : other = proc
    · simp [hother, hphase]
    · simp [hother]
  have hcommits : ∀ other, (update phase proc (.inside (insert blockno blocks)) other).commits =
        (phase other).commits := by
    intro other
    by_cases hother : other = proc
    · rw [hother, update_self, hphase]
      rfl
    · rw [update_of_ne hother]
  have hcommitted : ∀ other,
      update phase proc (.inside (insert blockno blocks)) other = .committed →
        phase other = .committed := by
    intro other hcommitted
    by_cases hother : other = proc
    · rw [hother, update_self] at hcommitted
      cases hcommitted
    · rwa [update_of_ne hother] at hcommitted
  have hlogged : blockno ∈ next.lh.logged → (∀ old ∈ log.lh.logged, old ∈ next.lh.logged) →
      ∀ other found, update phase proc (.inside (insert blockno blocks)) other = .inside found →
        ∀ entry ∈ found, entry ∈ next.lh.logged := by
    intro hnew hold other found hfound entry hentry
    by_cases hother : other = proc
    · rw [hother, update_self, Phase.inside.injEq] at hfound
      rw [← hfound, Finset.mem_insert] at hentry
      rcases hentry with rfl | hentry
      · exact hnew
      · exact hold entry (hcoherent.logged proc blocks hphase entry hentry)
    · rw [update_of_ne hother] at hfound
      exact hold entry (hcoherent.logged other found hfound entry hentry)
  have hactive := fun other => (hcoherent.mem_active other).trans (hmem other).symm
  obtain ⟨hcommiting, hcommitter⟩ := hcoherent.commits_congr hcommits
  obtain ⟨hopen, ⟨hold, rfl⟩ | ⟨hnew, hlen, _, rfl⟩⟩ := Log.write_eq_ok hwrite
  · exact ⟨hactive, hcoherent.card_active, hlogged hold fun _ h => h,
      hcoherent.nodup, hcoherent.len_le, hcommiting, hcommitter, hcoherent.exclusive,
      fun other hother => hcoherent.committed other (hcommitted other hother), hcoherent.idle⟩
  · have happend : (log.lh.push blockno).logged = log.lh.logged ++ [blockno] :=
      LogHeader.logged_push _ _ (by omega)
    have hbusy : log.commiting = false := by
      by_contra hflag
      have := hcoherent.exclusive (by simpa using hflag)
      omega
    refine ⟨hactive, hcoherent.card_active, hlogged ?_ ?_, ?_, ?_, hcommiting, hcommitter,
      hcoherent.exclusive, ?_, ?_⟩
    · change blockno ∈ (log.lh.push blockno).logged
      simp [happend]
    · intro old hold
      change old ∈ (log.lh.push blockno).logged
      simp [happend, hold]
    · change (log.lh.push blockno).logged.Nodup
      rw [happend, List.nodup_append]
      refine ⟨hcoherent.nodup, List.nodup_singleton _, ?_⟩
      intro old hold entry hentry heq
      rw [List.mem_singleton] at hentry
      exact hnew (hentry ▸ heq ▸ hold)
    · change log.lh.len + 1 ≤ logSize - 1
      omega
    · intro other hother
      have hcommitter := hcoherent.not_commits hbusy other
      rw [hcommitted other hother] at hcommitter
      cases hcommitter
    · intro hzero
      change log.outstanding = 0 at hzero
      omega

/-- A process that leaves its operation, towards the commit or past it. -/
theorem Coherent.endOp (hcoherent : Coherent log phase active)
    {blocks : Finset UInt32} {last : Bool} (hphase : phase proc = .inside blocks)
    (hend : log.endOp = .ok (last, next)) :
    Coherent next (update phase proc (if last then .committing else .outside))
      (active.erase proc) := by
  obtain ⟨hopen, hidle, hlast⟩ := Log.endOp_eq_ok hend
  have hactive : proc ∈ active := (hcoherent.mem_active proc).mpr ⟨_, hphase⟩
  have hlh : next.lh = log.lh := by rcases hlast with ⟨-, -, rfl⟩ | ⟨-, -, rfl⟩ <;> rfl
  have hinside : ∀ other found, update phase proc (if last then .committing else .outside) other =
        .inside found ↔ other ≠ proc ∧ phase other = .inside found := by
    intro other found
    by_cases hother : other = proc
    · cases last <;> simp [hother]
    · simp [hother]
  have hcommits : ∀ other,
      (update phase proc (if last then .committing else .outside) other).commits
        → other = proc ∧ last = true := by
    intro other hcommits
    by_cases hother : other = proc
    · rw [hother, update_self] at hcommits
      refine ⟨hother, ?_⟩
      cases last
      · cases hcommits
      · rfl
    · rw [update_of_ne hother, hcoherent.not_commits hidle] at hcommits
      cases hcommits
  refine ⟨?_, ?_, ?_, ?_, ?_, ?_, ?_, ?_, ?_, ?_⟩
  · intro other
    simp only [Finset.mem_erase, hcoherent.mem_active, hinside, exists_and_left]
  · rw [Finset.card_erase_of_mem hactive, hcoherent.card_active]
    rcases hlast with ⟨-, hone, rfl⟩ | ⟨-, -, rfl⟩
    · rw [hone]
    · rfl
  · intro other found hfound
    rw [hlh]
    exact hcoherent.logged other found ((hinside other found).mp hfound).2
  · rw [hlh]
    exact hcoherent.nodup
  · rw [hlh]
    exact hcoherent.len_le
  · intro other hother
    obtain ⟨-, rfl⟩ := hcommits other hother
    rcases hlast with ⟨-, -, rfl⟩ | ⟨hfalse, -, -⟩
    · rfl
    · cases hfalse
  · intro left right hleft hright
    rw [(hcommits left hleft).1, (hcommits right hright).1]
  · intro hflag
    rcases hlast with ⟨-, -, rfl⟩ | ⟨-, -, rfl⟩
    · rfl
    · change log.commiting = true at hflag
      rw [hidle] at hflag
      cases hflag
  · intro other hother
    exfalso
    by_cases heq : other = proc
    · rw [heq, update_self] at hother
      cases last <;> cases hother
    · rw [update_of_ne heq] at hother
      have hcommitter := hcoherent.not_commits hidle other
      rw [hother] at hcommitter
      cases hcommitter
  · intro hzero hflag
    rcases hlast with ⟨-, -, rfl⟩ | ⟨-, hmore, rfl⟩
    · cases hflag
    · change log.outstanding - 1 = 0 at hzero
      omega

/-- Emptying the header at the end of `commit_no_lock`. -/
theorem Coherent.commit (hcoherent : Coherent log phase active)
    (hphase : phase proc = .committing) :
    Coherent log.emptied (update phase proc .committed) active := by
  have hflag : log.commiting = true := by
    apply hcoherent.commiting proc
    rw [hphase]
    rfl
  have hzero := hcoherent.exclusive hflag
  have hcommits : ∀ other,
      (update phase proc .committed other).commits = (phase other).commits := by
    intro other
    by_cases hother : other = proc
    · rw [hother, update_self, hphase]
      rfl
    · rw [update_of_ne hother]
  have hempty : active = ∅ := by rw [← Finset.card_eq_zero, hcoherent.card_active, hzero]
  have hinside : ∀ other found, update phase proc .committed other ≠ .inside found := by
    intro other found hfound
    by_cases hother : other = proc
    · rw [hother, update_self] at hfound
      cases hfound
    · rw [update_of_ne hother] at hfound
      have hmem := (hcoherent.mem_active other).mpr ⟨found, hfound⟩
      simp [hempty] at hmem
  obtain ⟨hcommiting, hcommitter⟩ := hcoherent.commits_congr hcommits
  refine ⟨?_, hcoherent.card_active, ?_, ?_, Nat.zero_le _, hcommiting, hcommitter,
    hcoherent.exclusive, fun _ _ => rfl, fun _ _ => rfl⟩
  · intro other
    simp [hempty, hinside]
  · intro other found hfound
    exact absurd hfound (hinside other found)
  · change ([] : List UInt32).Nodup
    exact List.nodup_nil

/-- Taking the `commiting` flag down again. -/
theorem Coherent.release (hcoherent : Coherent log phase active)
    (hphase : phase proc = .committed) :
    Coherent { log with commiting := false } (update phase proc .outside)
      active := by
  have hown : (phase proc).commits := by
    rw [hphase]
    rfl
  have hcommits : ∀ other, (update phase proc .outside other).commits = false := by
    intro other
    by_cases hother : other = proc
    · rw [hother, update_self]
      rfl
    · rw [update_of_ne hother]
      by_contra hcommits
      exact hother (hcoherent.committer other proc (by simpa using hcommits) hown)
  have hinside : ∀ other found, update phase proc .outside other = .inside found ↔
        phase other = .inside found := by
    intro other found
    by_cases hother : other = proc
    · simp [hother, hphase]
    · simp [hother]
  refine ⟨?_, hcoherent.card_active, ?_, hcoherent.nodup, hcoherent.len_le,
    ?_, ?_, ?_, ?_, fun _ _ => hcoherent.committed proc hphase⟩
  · intro other
    simp only [hcoherent.mem_active, hinside]
  · intro other found hfound
    exact hcoherent.logged other found ((hinside other found).mp hfound)
  · intro other hother
    simp [hcommits] at hother
  · intro left right hleft
    simp [hcommits] at hleft
  · intro hflag
    cases hflag
  · intro other hother
    have hcommitter := hcommits other
    rw [hother] at hcommitter
    cases hcommitter

end Steps

end RxOs.LogProtocol
