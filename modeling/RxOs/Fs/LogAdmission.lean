import RxOs.Fs.LogProtocol

/-!
# Admission to the log

`begin_op` admits an operation while `1 + len + (outstanding + 1) * MAXOPBLOCKS`
does not exceed `LOGSIZE`; `Log::write` panics when the header would grow past
`LOGSIZE - 2` blocks.  The two differ by one block.  When the header holds
exactly nine blocks of finished operations and the one open operation has not
logged anything yet, a further operation is admitted although the two of them
may need twenty slots where nineteen are left.
-/

namespace RxOs.LogAdmission

open Function Params LogState Transition LogProtocol

variable {Proc : Type*} [DecidableEq Proc]

/-- No process that keeps to its reservation runs into one of the two
capacity panics of `Log::write`. -/
def NoSpacePanic (system : System Proc) : Prop :=
  ∀ proc blocks blockno, system.phase proc = .inside blocks →
    (insert blockno blocks).card ≤ maxOpBlocks → system.log.write blockno ≠ .error .logFullOngoing ∧
      system.log.write blockno ≠ .error .logFullTransaction

/-- An operation is admitted with the header at nine blocks only if the other
open operation has already logged one of its blocks. -/
def ReservesRoom (system : System Proc) : Action Proc → Prop
  | .beginOp _ => ∀ other blocks, system.phase other = .inside blocks →
      system.log.lh.len + 1 + 2 * maxOpBlocks = logSize → blocks.Nonempty
  | _ => True

def remaining : Phase → ℕ
  | .inside blocks => maxOpBlocks - blocks.card
  | _ => 0

/-- The slots that the open operations may still need are free. -/
structure Reserved (log : Log) (phase : Proc → Phase) (active : Finset Proc) :
    Prop extends Coherent log phase active where
  size_eq : log.size = logSize
  room : log.lh.len + ∑ proc ∈ active, remaining (phase proc) + 2 ≤ logSize

omit [DecidableEq Proc] in
theorem reserved_initial (start : ℕ) :
    Reserved (System.initial Proc start logSize).log
      (System.initial Proc start logSize).phase ∅ where
  toCoherent := coherent_initial start logSize
  size_eq := rfl
  room := by simp [System.initial, logSize, maxOpBlocks]

omit [DecidableEq Proc] in
/-- With the slots reserved neither capacity check fires. -/
theorem Reserved.noSpacePanic {system : System Proc} {active : Finset Proc}
    (hreserved : Reserved system.log system.phase active) : NoSpacePanic system := by
  intro proc blocks blockno hphase hcard
  have hroom := hreserved.room
  have hsize := hreserved.size_eq
  have hfirst : ¬(system.log.lh.len + 1 ≥ logSize ∨
      system.log.lh.len + 1 ≥ system.log.size) := by omega
  have hsecond : blockno ∉ system.log.lh.logged → ¬(system.log.lh.len + 2 ≥ logSize ∨
        system.log.lh.len + 2 ≥ system.log.size) := by
    intro hnew
    have hblocks : blockno ∉ blocks :=
      fun hmem => hnew (hreserved.logged proc blocks hphase blockno hmem)
    have hactive : proc ∈ active := (hreserved.mem_active proc).mpr ⟨blocks, hphase⟩
    have hslot : 1 ≤ remaining (system.phase proc) := by
      rw [Finset.card_insert_of_notMem hblocks] at hcard
      rw [hphase, remaining]
      omega
    have hsum := Finset.single_le_sum (f := fun other => remaining (system.phase other))
      (fun _ _ => Nat.zero_le _) hactive
    omega
  unfold Log.write
  rw [if_neg hfirst]
  split
  · simp
  · split
    · simp
    · next hnew =>
        rw [if_neg (hsecond hnew)]
        simp

/-! ## Each step keeps the reservation -/

section Steps

variable {log next : Log} {phase : Proc → Phase} {active : Finset Proc}
variable {proc : Proc}

theorem sum_erase_remaining (phase : Proc → Phase) (active : Finset Proc)
    (proc : Proc) (changed : Phase) :
    ∑ other ∈ active.erase proc, remaining (update phase proc changed other) =
      ∑ other ∈ active.erase proc, remaining (phase other) := by
  apply Finset.sum_congr rfl
  intro other hother
  rw [update_of_ne (Finset.ne_of_mem_erase hother)]

omit [DecidableEq Proc] in
/-- The admission test leaves room for a whole further reservation, except in
the one case that `ReservesRoom` excludes. -/
theorem Reserved.room_of_beginOp (hreserved : Reserved log phase active)
    (hguard : 1 + log.lh.len + (log.outstanding + 1) * maxOpBlocks ≤ logSize)
    (hcommiting : log.commiting = false) (hadmitted : ∀ other blocks, phase other = .inside blocks →
      log.lh.len + 1 + 2 * maxOpBlocks = logSize → blocks.Nonempty) :
    log.lh.len + ∑ other ∈ active, remaining (phase other) + maxOpBlocks + 2 ≤
      logSize := by
  have hop : maxOpBlocks = 10 := rfl
  have hlog : logSize = 30 := rfl
  have hcard := hreserved.card_active
  have hcases : log.outstanding = 0 ∨ log.outstanding = 1 := by
    rw [hop, hlog] at hguard
    omega
  rcases hcases with hnone | hone
  · have hempty : active = ∅ := by rw [← Finset.card_eq_zero, hcard, hnone]
    have hlen := hreserved.idle hnone hcommiting
    rw [hempty, Finset.sum_empty, hlen, hop, hlog]
    omega
  · obtain ⟨other, rfl⟩ : ∃ other, active = {other} := Finset.card_eq_one.mp (hcard.trans hone)
    obtain ⟨blocks, hblocks⟩ := (hreserved.mem_active other).mp (Finset.mem_singleton_self other)
    have hnine : log.lh.len = 9 → 0 < blocks.card := by
      intro hlen
      apply Finset.card_pos.mpr
      apply hadmitted other blocks hblocks
      rw [hlen, hop, hlog]
    rw [Finset.sum_singleton, hblocks, remaining, hop, hlog]
    rw [hone, hop, hlog] at hguard
    omega

/-- A process entering its operation adds its reservation to the sum. -/
theorem Reserved.beginOp (hreserved : Reserved log phase active)
    (hphase : phase proc = .outside) (hbegin : log.beginOp = some next)
    (hadmitted : ∀ other blocks, phase other = .inside blocks →
      log.lh.len + 1 + 2 * maxOpBlocks = logSize → blocks.Nonempty) :
    Reserved next (update phase proc (.inside ∅)) (insert proc active) := by
  have hcoherent := hreserved.toCoherent.beginOp hphase hbegin
  obtain ⟨hcommiting, hguard, rfl⟩ := Log.beginOp_eq_some hbegin
  refine ⟨hcoherent, hreserved.size_eq, ?_⟩
  have hfresh : proc ∉ active := by
    rw [hreserved.mem_active]
    rintro ⟨blocks, hblocks⟩
    rw [hphase] at hblocks
    cases hblocks
  have hsum := sum_erase_remaining phase active proc (.inside ∅)
  rw [Finset.erase_eq_of_notMem hfresh] at hsum
  have hroom := hreserved.room_of_beginOp hguard hcommiting hadmitted
  rw [Finset.sum_insert hfresh, update_self, hsum]
  change log.lh.len + (maxOpBlocks - 0 + _) + 2 ≤ logSize
  omega

/-- A new block moves one slot from the reservation to the header. -/
theorem Reserved.write (hreserved : Reserved log phase active)
    {blocks : Finset UInt32} {blockno : UInt32} (hphase : phase proc = .inside blocks)
    (hcard : (insert blockno blocks).card ≤ maxOpBlocks) (hwrite : log.write blockno = .ok next) :
    Reserved next (update phase proc (.inside (insert blockno blocks)))
      active := by
  have hcoherent := hreserved.toCoherent.write hphase hwrite
  have hroom := hreserved.room
  have hactive : proc ∈ active := (hreserved.mem_active proc).mpr ⟨_, hphase⟩
  have hsum := sum_erase_remaining phase active proc (.inside (insert blockno blocks))
  rw [← Finset.add_sum_erase _ _ hactive, hphase, remaining] at hroom
  have hlogged := hreserved.logged proc blocks hphase blockno
  obtain ⟨-, ⟨-, rfl⟩ | ⟨hnew, -, -, rfl⟩⟩ := Log.write_eq_ok hwrite
  · refine ⟨hcoherent, hreserved.size_eq, ?_⟩
    have hmono := Finset.card_le_card (Finset.subset_insert blockno blocks)
    rw [← Finset.add_sum_erase _ _ hactive, update_self, remaining, hsum]
    omega
  · refine ⟨hcoherent, hreserved.size_eq, ?_⟩
    rw [Finset.card_insert_of_notMem (fun hmem => hnew (hlogged hmem))] at hcard
    rw [← Finset.add_sum_erase _ _ hactive, update_self, remaining, hsum,
      Finset.card_insert_of_notMem (fun hmem => hnew (hlogged hmem))]
    change log.lh.len + 1 + _ + 2 ≤ _
    omega

/-- A finished operation gives its remaining slots back. -/
theorem Reserved.endOp (hreserved : Reserved log phase active)
    {blocks : Finset UInt32} {last : Bool} (hphase : phase proc = .inside blocks)
    (hend : log.endOp = .ok (last, next)) :
    Reserved next (update phase proc (if last then .committing else .outside))
      (active.erase proc) := by
  have hcoherent := hreserved.toCoherent.endOp hphase hend
  have hactive : proc ∈ active := (hreserved.mem_active proc).mpr ⟨_, hphase⟩
  have hroom := hreserved.room
  rw [← Finset.add_sum_erase _ _ hactive] at hroom
  obtain ⟨hsize, hlh⟩ : next.size = log.size ∧ next.lh = log.lh := by
    obtain ⟨-, -, ⟨-, -, rfl⟩ | ⟨-, -, rfl⟩⟩ := Log.endOp_eq_ok hend <;>
      exact ⟨rfl, rfl⟩
  refine ⟨hcoherent, hsize.trans hreserved.size_eq, ?_⟩
  rw [sum_erase_remaining, hlh]
  omega

/-- The steps of the committing process need no room. -/
theorem sum_remaining_of_idle {changed : Phase}
    (hphase : remaining (phase proc) = 0) (hchanged : remaining changed = 0) :
    ∑ other ∈ active, remaining (update phase proc changed other) =
      ∑ other ∈ active, remaining (phase other) := by
  apply Finset.sum_congr rfl
  intro other _
  by_cases hother : other = proc
  · rw [hother, update_self, hphase, hchanged]
  · rw [update_of_ne hother]

theorem Reserved.commit (hreserved : Reserved log phase active)
    (hphase : phase proc = .committing) :
    Reserved log.emptied (update phase proc .committed) active := by
  refine ⟨hreserved.toCoherent.commit hphase, hreserved.size_eq, ?_⟩
  have hroom := hreserved.room
  rw [sum_remaining_of_idle (by rw [hphase]; rfl) rfl]
  change 0 + _ + 2 ≤ logSize
  omega

theorem Reserved.release (hreserved : Reserved log phase active)
    (hphase : phase proc = .committed) :
    Reserved { log with commiting := false } (update phase proc .outside)
      active := by
  refine ⟨hreserved.toCoherent.release hphase, hreserved.size_eq, ?_⟩
  rw [sum_remaining_of_idle (by rw [hphase]; rfl) rfl]
  exact hreserved.room

end Steps

/-- An admitted step keeps every open operation's slots free. -/
theorem reserved_step (system : System Proc) (action : Action Proc) (next : System Proc)
    (hreserved : ∃ active, Reserved system.log system.phase active)
    (hadmitted : ReservesRoom system action) (hstep : system.step action = some next) :
    ∃ active, Reserved next.log next.phase active := by
  obtain ⟨active, hreserved⟩ := hreserved
  rcases System.step_cases hstep with
    ⟨proc, log, rfl, hphase, hlog, rfl⟩ |
    ⟨proc, blockno, blocks, log, rfl, hphase, hcard, hlog, rfl⟩ |
    ⟨proc, blocks, last, log, rfl, hphase, hlog, rfl⟩ |
    ⟨proc, rfl, hphase, rfl⟩ | ⟨proc, rfl, hphase, rfl⟩
  · exact ⟨_, hreserved.beginOp hphase hlog hadmitted⟩
  · exact ⟨_, hreserved.write hphase hcard hlog⟩
  · exact ⟨_, hreserved.endOp hphase hlog⟩
  · exact ⟨_, hreserved.commit hphase⟩
  · exact ⟨_, hreserved.release hphase⟩

/-- In every run, of any number of processes, in which no operation is admitted
while the header holds nine blocks and the other open operation has logged
none, neither capacity panic of `Log::write` is reached in any state. -/
theorem run_noSpacePanic {start : ℕ} {last : System Proc}
    {record : List (System Proc × Action Proc)}
    (hrun : Run System.step (System.initial Proc start logSize) record last)
    (hadmitted : ∀ entry ∈ record, ReservesRoom entry.1 entry.2) :
    NoSpacePanic last ∧ ∀ entry ∈ record, NoSpacePanic entry.1 := by
  obtain ⟨⟨active, hlast⟩, hrecord⟩ := hrun.invariant reserved_step
    ⟨∅, reserved_initial start⟩ hadmitted
  refine ⟨hlast.noSpacePanic, ?_⟩
  intro entry hentry
  obtain ⟨active, hreserved⟩ := hrecord entry hentry
  exact hreserved.noSpacePanic

/-- Two operations that overlap, the first having logged a block before the
second is admitted. -/
theorem run_noSpacePanic_two : ∃ record last,
    Run System.step (System.initial (Fin 2) 2 logSize) record last ∧
      record.map Prod.snd = [.beginOp 0, .write 0 7, .beginOp 1] ∧ NoSpacePanic last := by
  have hrun : Run System.step (System.initial (Fin 2) 2 logSize)
      [(_, .beginOp 0), (_, .write 0 7), (_, .beginOp 1)] _ :=
    .step rfl (.step rfl (.step rfl (.done _)))
  refine ⟨_, _, hrun, rfl, (run_noSpacePanic hrun ?_).1⟩
  simp only [List.forall_mem_cons, ReservesRoom]
  refine ⟨?_, trivial, ?_, by simp⟩
  · intro other blocks _ hlen
    exact absurd hlen (by decide)
  · intro other blocks _ hlen
    exact absurd hlen (by decide)

/-! ## Three overlapping operations -/

/-- Process 0 opens an operation; process 1 logs nine blocks and finishes;
process 2 is then admitted and logs ten; process 0 logs nine. -/
def overlap : List (Action (Fin 3)) :=
  [.beginOp 0, .beginOp 1] ++ (List.range 9).map (fun i => .write 1 (.ofNat i)) ++
    [.endOp 1, .beginOp 2] ++ (List.range 10).map (fun i => .write 2 (.ofNat (9 + i))) ++
    (List.range 9).map (fun i => .write 0 (.ofNat (19 + i)))

/-- Process 0 finds the log full although its reservation is not used up. -/
def overflows (system : System (Fin 3)) : Bool :=
  match system.phase 0, system.log.write 28 with
  | .inside blocks, .error .logFullTransaction => (insert 28 blocks).card ≤ maxOpBlocks
  | _, _ => false

theorem not_noSpacePanic_of_overflows {system : System (Fin 3)}
    (hoverflows : overflows system = true) : ¬NoSpacePanic system := by
  intro hsafe
  unfold overflows at hoverflows
  split at hoverflows
  · next blocks hphase hwrite =>
      exact (hsafe 0 blocks 28 hphase (of_decide_eq_true hoverflows)).2 hwrite
  · cases hoverflows

/-- Some run of three processes that keep to their reservations ends in the
capacity panic. -/
theorem exists_run_space_panic :
    ¬∀ (start : ℕ) (record : List (System (Fin 3) × Action (Fin 3))) (last : System (Fin 3)),
      Run System.step (System.initial (Fin 3) start logSize) record last → NoSpacePanic last := by
  intro hsafe
  have hfull : (overlap.foldlM System.step
      (System.initial (Fin 3) 2 logSize)).any overflows = true := by decide +kernel
  obtain ⟨last, hfold, hoverflows⟩ := Option.any_eq_true _ _ |>.mp hfull
  obtain ⟨record, hrun, -⟩ := Run.of_foldlM hfold
  exact not_noSpacePanic_of_overflows hoverflows (hsafe 2 record last hrun)

end RxOs.LogAdmission
