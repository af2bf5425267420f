import RxOs.Fs.LogCosts
import RxOs.Syscall.KernelFrame
import RxOs.Syscall.Sequential

/-!
# The reservation of one write

`begin_op` reserves `MAXOPBLOCKS` blocks of the log for an operation.  A round of
the loop in `VFile::write` is one operation; this module counts the blocks that
it passes to `Log::write` when there is a single bitmap block.
-/

namespace RxOs.Reservation

open KernelFrame Exec Params Blocks BitMap Dinode Inode Kernel LogUse LogCosts
open Operations File RxOs.Sequential

/-- A chunk of `VFile::write` meets at most four blocks. -/
theorem rounds_le_of_maxWrite {offset count : ℕ} (hcount : count ≤ maxWrite) :
    rounds offset count ≤ 4 := by
  have hbsize : bsize = 1024 := rfl
  have hmax : maxWrite = 3072 := rfl
  unfold rounds
  rw [hbsize]
  split <;> omega

/-! ## One round of `VFile::write` -/

variable {Value : Type}

theorem costs_of_still {program : KernelM Value} (hstill : Guarantees still program) :
    Costs KernelState.vol 0 program := by
  intro kernel _
  have hrefl : ∀ next : KernelState, next.vol = kernel.vol →
      Logs 0 kernel.vol next.vol := fun next hvol => hvol ▸ Logs.refl kernel.vol
  exact (hstill kernel).imp (fun _ next hvol => hrefl next hvol)
    fun _ next hstop => hrefl next hstop.1

theorem costs_onVolume {count : ℕ} {program : FsM Value} (hcosts : FsCosts count program) :
    Costs KernelState.vol count (onVolume program) := by
  intro kernel hsize
  rw [onVolume, ensures_zoom]
  exact hcosts kernel.vol hsize

theorem costs_onData {count : ℕ} (inode : Handle) {method : InodeData → FsM (Value × InodeData)}
    (hcosts : ∀ idata, FsCosts count (method idata)) :
    Costs KernelState.vol count (onData inode method) := by
  intro kernel hsize
  rw [ensures_onData]
  exact hcosts _ kernel.vol hsize

theorem costs_beginOp : FsCosts 0 beginOp := by
  intro vol _
  exact ensures_logStep_logs ∅ (by simp [loggedBlocks])

theorem costs_endOpLocked : FsCosts 0 endOpLocked := by
  intro vol _
  rw [endOpLocked]
  simp only [ensures_bind, ensures_get]
  split
  · exact Logs.refl vol
  · exact ⟨rfl, [.endOp], ∅, rfl, Nat.le_refl _, by simp [loggedBlocks]⟩

theorem costs_commitLocked : FsCosts 0 commitLocked := by
  intro vol _
  rw [commitLocked]
  simp only [ensures_bind, ensures_get]
  split
  · exact Logs.refl vol
  · exact ⟨rfl, [], ∅, (List.append_nil _).symm, Nat.le_refl _,
      fun _ hmem => absurd hmem List.not_mem_nil⟩

theorem costs_endOp (proc : Proc) : Costs KernelState.vol 0 (execute proc endOp) := by
  rw [Operations.endOp, execute_bind, execute_act]
  apply Costs.after _ (costs_onVolume costs_endOpLocked)
  intro last
  rw [apply_ite (execute proc), execute_act]
  exact Costs.ite (costs_onVolume costs_commitLocked) (costs_pure _)

/-- What a round does after its write logs nothing. -/
theorem costs_closeChunk {count : ℕ} {proc : Proc} {fd : ℕ} {inode : Handle}
    {rest : ℕ → Call SysResult} (outcome : Except String ℕ)
    (hrest : ∀ total, Costs KernelState.vol count (execute proc (rest total))) :
    Costs KernelState.vol count (execute proc (match outcome with
      | .error _ => do
        act (.unlock inode)
        pure (.error ())
      | .ok total => do
        act (.unlock inode)
        Operations.endOp
        act (.advance fd total)
        rest total)) := by
  have hunlock : Costs KernelState.vol 0 (perform proc none (.unlock inode)) :=
    costs_of_still (still_of_calm (calm_cacheUnlock inode))
  cases outcome with
  | error message =>
    change Costs _ _ (execute proc (act (.unlock inode) >>= fun _ => _))
    rw [execute_bind, execute_act]
    exact Costs.after (fun _ => (costs_pure _).mono (Nat.zero_le _)) hunlock
  | ok total =>
    change Costs _ _ (execute proc (act (.unlock inode) >>= fun _ => _))
    rw [execute_bind, execute_act]
    refine Costs.after (fun _ => ?_) hunlock
    rw [execute_bind]
    refine Costs.after (fun _ => ?_) (costs_endOp proc)
    rw [execute_bind, execute_act]
    exact Costs.after (fun _ => hrest total) (costs_of_still (still_advance proc fd total))

/-- Every round of the loop logs nine blocks besides the bitmap block. -/
theorem costs_writeChunks (proc : Proc) (fd : ℕ) (inode : Handle)
    (data : List UInt8) (fuel count : ℕ) :
    Costs KernelState.vol (9 * fuel) (execute proc (writeChunks fd inode data fuel count)) := by
  induction fuel generalizing count with
  | zero => exact costs_pure _
  | succ fuel ih =>
    rw [writeChunks, apply_ite (execute proc)]
    refine Costs.ite ((costs_pure _).mono (Nat.zero_le _)) ?_
    rw [execute_bind, execute_act]
    refine Costs.after (fun _ => ?_) (costs_onVolume costs_beginOp)
    rw [execute_bind, execute_act]
    refine Costs.after (fun _ => ?_) (costs_of_still (still_of_calm (calm_cacheLock inode)))
    rw [execute_bind, execute_act]
    refine Costs.after (fun file => ?_) (costs_of_still (still_perform rfl nofun))
    rw [execute_bind, execute_act]
    have hwrite : Costs KernelState.vol 9 (perform proc none
        (.write inode file.offset ((data.drop count).take maxWrite))) := by
      change Costs KernelState.vol 9 (onData inode (·.write file.offset _))
      apply costs_onData inode
      intro idata
      apply (costs_write idata file.offset _).mono
      have hrounds : rounds file.offset.toNat ((data.drop count).take maxWrite).length ≤ 4 :=
        rounds_le_of_maxWrite (List.length_take_le _ _)
      omega
    exact hwrite.bind (fun outcome => costs_closeChunk outcome fun _ => ih _)
      (show 9 + 9 * fuel ≤ 9 * (fuel + 1) by omega)

/-- The distinct blocks that are passed to `Log::write` between two states. -/
def Passes (bound : ℕ) (vol next : Volume) : Prop :=
  ∃ events, next.events = vol.events ++ events ∧ (loggedBlocks events).dedup.length ≤ bound

theorem passes_of_logs {count : ℕ} {vol next : Volume}
    (hlogs : Logs count vol next) : Passes (count + 1) vol next := by
  obtain ⟨events, extra, hevents, hcard, hblocks⟩ := hlogs.logged
  refine ⟨events, hevents, ?_⟩
  have hsubset : (loggedBlocks events).toFinset ⊆ insert (.ofNat vol.sb.bmapstart) extra := by
    intro blockno hmem
    rw [Finset.mem_insert]
    exact hblocks blockno (List.mem_toFinset.mp hmem)
  calc (loggedBlocks events).dedup.length = (loggedBlocks events).toFinset.card := rfl
    _ ≤ (insert (.ofNat vol.sb.bmapstart) extra).card := Finset.card_le_card hsubset
    _ ≤ extra.card + 1 := Finset.card_insert_le _ _
    _ ≤ count + 1 := by omega

/-- With a single bitmap block, a round of the loop in `VFile::write` passes at
most `MAXOPBLOCKS` distinct blocks to `Log::write`, whether it returns or
stops. -/
theorem writeChunk_within_reservation (kernel : KernelState) (proc : Proc)
    (fd : ℕ) (inode : Handle) (data : List UInt8) (count : ℕ) (hsize : kernel.vol.sb.size ≤ bpb) :
    Ensures (execute proc (writeChunks fd inode data 1 count)) kernel
      (fun _ next => Passes maxOpBlocks kernel.vol next.vol)
      fun _ next => Passes maxOpBlocks kernel.vol next.vol :=
  (costs_writeChunks proc fd inode data 1 count kernel hsize).imp
    (fun _ _ hlogs => passes_of_logs hlogs) fun _ _ hlogs => passes_of_logs hlogs

theorem writeChunk_within_reservation_sample :
    ∃ next, execute 0 (writeChunks 0 ⟨3, 0⟩ [7, 8, 9] 1 0)
        (openKernel sampleVolume DiskInode.new) = .ok (.ok 3) next ∧
      Passes maxOpBlocks sampleVolume next.vol := by
  have hreturns : (match execute 0 (writeChunks 0 ⟨3, 0⟩ [7, 8, 9] 1 0)
        (openKernel sampleVolume DiskInode.new) with
      | .ok reply _ => decide (reply.toOption = some 3)
      | .error _ _ => false) = true := by decide +kernel
  have hpasses := writeChunk_within_reservation
    (openKernel sampleVolume DiskInode.new) 0 0 ⟨3, 0⟩ [7, 8, 9] 0 (by decide)
  cases hrun : execute 0 (writeChunks 0 ⟨3, 0⟩ [7, 8, 9] 1 0)
      (openKernel sampleVolume DiskInode.new) with
  | ok reply next =>
    rw [hrun] at hreturns
    cases reply with
    | ok value =>
      have hvalue : some value = some 3 := of_decide_eq_true hreturns
      cases hvalue
      exact ⟨next, rfl, hpasses.eq_ok hrun⟩
    | error message => cases hreturns
  | error cause next =>
    rw [hrun] at hreturns
    cases hreturns

end RxOs.Reservation
