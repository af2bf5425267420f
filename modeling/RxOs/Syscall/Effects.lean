import RxOs.Syscall.KernelFrame
import RxOs.Syscall.Transactions

/-!
# What the operations do to the log

`begin_op` and `end_op` move the number of open operations by one; every other
operation leaves it alone.  The operations that are not of kind `logs` do not
call `Log::write`, except for a read that allocates.
-/

namespace RxOs.Effects

open KernelFrame Exec Params LogState LogCommit Blocks Dinode Inode Kernel
open LogUse Operations Transactions

/-- `logging` for kernel code. -/
def kernelLogging : Guarantee KernelState Stop :=
  logging.comap KernelState.vol

/-- `silent` for kernel code. -/
def kernelSilent : Guarantee KernelState Stop :=
  silent.comap KernelState.vol

/-- Code that leaves the volume alone gives every guarantee about it. -/
theorem guarantees_of_still {Value : Type} {program : KernelM Value}
    {guarantee : Guarantee Volume Stop}
    (hstops : ∀ vol cause, cause ≠ .panic .logOutOfRecording → guarantee.stops vol cause)
    (hstill : Guarantees still program) :
    Guarantees (guarantee.comap KernelState.vol) program := by
  have hrefl : ∀ {kernel next : KernelState}, next.vol = kernel.vol →
      guarantee.rel kernel.vol next.vol := by
    intro kernel next hvol
    rw [hvol]
    exact guarantee.refl kernel.vol
  intro kernel
  exact (hstill kernel).imp (fun _ _ hvol => hrefl hvol) fun _ _ hstop =>
    ⟨hrefl hstop.1, hstops _ _ hstop.2⟩

theorem silent_of_still {Value : Type} {program : KernelM Value}
    (hstill : Guarantees still program) : Guarantees kernelSilent program :=
  guarantees_of_still (fun _ _ hcause => hcause) hstill

theorem silent_commitLocked : Guarantees silent commitLocked := by
  intro vol
  refine ensures_bind.mpr ?_
  rw [ensures_get]
  have hcommits := commits_commitNoLock vol.logged
  cases hcommit : vol.logged.commitNoLock with
  | error cause =>
    rw [hcommit] at hcommits
    exact ⟨silent.refl _, fun heq => hcommits (Stop.panic.inj heq)⟩
  | ok committed =>
    rw [hcommit] at hcommits
    exact ⟨hcommits, rfl⟩

/-! ## The operations -/

/-- The state is one in which the operation does not lead to `Log::write`: a
read takes no branch that allocates, and a handle that is put is not the last
one on an inode without links. -/
def Op.Quiet (kernel : KernelState) : Op → Prop
  | .read inode offset count => ReadsMapped kernel.vol (kernel.idatas inode.index) offset count
  | .putCheck inode => kernel.lastUnlinked inode = false
  | _ => True

instance (kernel : KernelState) (op : Op) : Decidable (Op.Quiet kernel op) := by
  unfold Op.Quiet
  split <;> infer_instance

section Perform

variable {proc : Proc} {answer : Option ℕ} {op : Op} {kernel : KernelState}

theorem silent_perform (hkind : Op.kind op ≠ .foreign) (hop : Op.onVolume op = false) :
    Guarantees kernelSilent (perform proc answer op) := by
  refine silent_of_still (still_perform hop ?_)
  rintro rfl
  exact hkind rfl

/-- A plain operation calls `Log::write` at most in a read that allocates. -/
theorem ensures_perform_plain (hkind : Op.kind op = .plain) (hquiet : Op.Quiet kernel op) :
    Ensures (perform proc answer op) kernel (fun _ next => kernelSilent.rel kernel next)
      fun cause next => kernelSilent.rel kernel next ∧ cause ≠ .panic .logOutOfRecording := by
  have hforeign : Op.kind op ≠ .foreign := by
    rw [hkind]
    exact nofun
  cases op with
  | commit => exact guarantees_onVolume silent_commitLocked kernel
  | assign inode dinode =>
    refine guarantees_onData inode
      (fun idata => guarantees_pure ((), idata.withDinode dinode)) kernel
  | read inode offset count =>
    obtain ⟨outcome, hread⟩ := read_of_readsMapped hquiet
    refine ensures_bind.mpr (ensures_get.mpr (ensures_bind.mpr ?_))
    refine ensures_zoom.mpr (ensures_of_eq_ok hread ?_)
    exact silent.refl kernel.vol
  | beginOp | endOp | update | write | truncate | allocInode | putTruncate =>
    cases hkind
  | _ => exact silent_perform hforeign rfl kernel

/-- A guarantee of `Log::write` is one of all operations that it holds for
otherwise. -/
theorem guarantees_of_covers {guarantee : Guarantee Volume Stop} (hcovers : Covers guarantee)
    (hbegin : op = .beginOp → Guarantees guarantee beginOp)
    (hend : op = .endOp → Guarantees guarantee endOpLocked)
    (hcommit : op = .commit → Guarantees guarantee commitLocked)
    (hpanic : ∀ cause, op = .panic cause → ∀ vol, guarantee.stops vol (.panic cause)) :
    Guarantees (guarantee.comap KernelState.vol) (perform proc answer op) := by
  cases op with
  | beginOp => exact guarantees_onVolume (hbegin rfl)
  | endOp => exact guarantees_onVolume (hend rfl)
  | commit => exact guarantees_onVolume (hcommit rfl)
  | assign inode dinode =>
    exact guarantees_onData inode fun idata => guarantees_pure ((), idata.withDinode dinode)
  | update inode =>
    exact guarantees_onData inode fun idata => Guarantees.bind (hcovers.update idata)
        fun _ => guarantees_pure ((), idata)
  | read inode offset count => exact guarantees_onData inode fun idata => hcovers.read idata _ _
  | write inode offset data => exact guarantees_onData inode fun idata => hcovers.write idata _ _
  | truncate inode =>
    exact guarantees_onData inode fun idata => Guarantees.bind (hcovers.truncate idata)
        fun next => guarantees_pure ((), next)
  | allocInode itype => exact guarantees_onVolume (hcovers.allocInode itype)
  | putTruncate inode =>
    refine Guarantees.bind (guarantees_onData inode fun idata => ?_) fun _ => ?_
    · exact Guarantees.bind (hcovers.truncate _) fun _ => guarantees_pure _
    · exact guarantees_of_still hcovers.stops (still_of_calm (calm_cacheUnlock inode))
  | panic cause => exact guarantees_throw fun kernel => hpanic cause rfl kernel.vol
  | _ => exact guarantees_of_still hcovers.stops (still_perform rfl nofun)

/-- Only `begin_op` and `end_op` move the number of open operations. -/
theorem guarantees_perform (hforeign : Op.kind op ≠ .foreign)
    (hopens : Op.kind op ≠ .opens) (hcloses : Op.kind op ≠ .closes) :
    Guarantees kernelLogging (perform proc answer op) := by
  apply guarantees_of_covers covers_logging
  · rintro rfl
    exact absurd rfl hopens
  · rintro rfl
    exact absurd rfl hcloses
  · exact fun _ => logging_of_silent silent_commitLocked
  · rintro cause rfl vol
    exact covers_logging.stops vol _ fun hcause => hforeign (Stop.panic.inj hcause ▸ rfl)

theorem logWrites_append_beginOp (events : List Event) :
    logWrites (events ++ [.beginOp]) = logWrites events := by simp [logWrites]

theorem logWrites_append_endOp (events : List Event) :
    logWrites (events ++ [.endOp]) = logWrites events := by simp [logWrites]

theorem ensures_perform_beginOp :
    Ensures (perform proc answer .beginOp) kernel
      (fun _ next => next.outstanding = kernel.outstanding + 1 ∧
        logWrites next.vol.events = logWrites kernel.vol.events) fun cause _ => cause = .sleep := by
  refine ensures_zoom.mpr (ensures_logStep.mpr ?_)
  unfold LoggedDisk.beginOp
  cases hbegin : kernel.vol.logged.log.beginOp with
  | none => exact rfl
  | some log =>
    obtain ⟨-, -, rfl⟩ := Log.beginOp_eq_some hbegin
    exact ⟨rfl, logWrites_append_beginOp _⟩

theorem ensures_perform_endOp :
    Ensures (perform proc answer .endOp) kernel
      (fun _ next => next.outstanding + 1 = kernel.outstanding ∧
        logWrites next.vol.events = logWrites kernel.vol.events)
      fun cause next => cause ≠ .panic .logOutOfRecording ∧
        logWrites next.vol.events = logWrites kernel.vol.events := by
  refine ensures_zoom.mpr (ensures_bind.mpr ?_)
  rw [ensures_get]
  cases hend : kernel.vol.logged.log.endOp with
  | error cause =>
    refine ⟨fun heq => ?_, rfl⟩
    cases heq
    unfold Log.endOp at hend
    split at hend
    · cases hend
    split at hend
    · cases hend
    split at hend <;> cases hend
  | ok result =>
    obtain ⟨last, log⟩ := result
    obtain ⟨-, -, ⟨-, hone, rfl⟩ | ⟨-, hmore, rfl⟩⟩ := Log.endOp_eq_ok hend
    · refine ⟨?_, logWrites_append_endOp _⟩
      change 0 + 1 = kernel.vol.logged.log.outstanding
      omega
    · refine ⟨?_, logWrites_append_endOp _⟩
      change kernel.vol.logged.log.outstanding - 1 + 1 = kernel.vol.logged.log.outstanding
      omega

/-- The number of open operations follows the operations performed, and the
panic of `Log::write` needs that no operation is open. -/
theorem ensures_perform (hforeign : Op.kind op ≠ .foreign) :
    Ensures (perform proc answer op) kernel
      (fun _ next => next.outstanding = depthAfter op kernel.outstanding ∧
        (Op.kind op = .closes → 0 < kernel.outstanding)) fun cause _ => 0 < kernel.outstanding →
        cause ≠ .panic .logOutOfRecording := by
  cases hkind : Op.kind op with
  | foreign => exact absurd hkind hforeign
  | opens =>
    obtain rfl := eq_beginOp_of_kind hkind
    refine ensures_perform_beginOp.imp ?_ ?_
    · intro _ next hnext
      exact ⟨hnext.1, by simp⟩
    · rintro cause _ rfl _
      simp
  | closes =>
    obtain rfl := eq_endOp_of_kind hkind
    refine ensures_perform_endOp.imp ?_ fun _ _ hstop _ => hstop.1
    intro _ next hnext
    refine ⟨?_, fun _ => hnext.1 ▸ Nat.succ_pos next.outstanding⟩
    change next.outstanding = kernel.outstanding - 1
    omega
  | _ =>
    refine (guarantees_perform hforeign (by simp [hkind]) (by simp [hkind])
      kernel).imp (fun _ _ hrel => ?_) fun _ _ hstop => hstop.2
    rw [depthAfter, hkind]
    exact ⟨hrel, by simp⟩

theorem ensures_onData_write (inode : Handle) (offset : UInt32) (data : List UInt8) :
    Ensures (onData inode (·.write offset data)) kernel
      (fun reply _ => reply = .ok data.length) fun _ _ => True := by
  refine ensures_bind.mpr (ensures_get.mpr (ensures_bind.mpr ?_))
  refine ensures_zoom.mpr ((ensures_write_ok _ offset data kernel.vol).imp ?_ ?_)
  · intro result _ hresult
    exact hresult
  · intro _ _ _
    trivial

theorem ensures_putCheck_false (inode : Handle) (hquiet : kernel.lastUnlinked inode = false) :
    Ensures (putCheck inode) kernel (fun reply _ => reply = false) fun _ _ => True := by
  have hrelease : ∀ kernel, Ensures (do
      releaseRef inode
      return false) kernel (fun reply _ => reply = false) fun _ _ => True := by
    intro kernel
    refine ensures_bind.mpr ((calm_releaseRef inode kernel).imp ?_ ?_)
    · intro _ _ _
      exact rfl
    · intro _ _ _
      trivial
  refine ensures_bind.mpr (ensures_get.mpr ?_)
  refine ensures_ite.mpr ⟨fun _ => ?_, fun _ => hrelease kernel⟩
  refine ensures_ite.mpr ⟨fun _ => trivial, fun _ => ?_⟩
  rw [hquiet]
  exact hrelease _

/-- `InodeData::write` does not fail, and a check that finds the state quiet
does not ask for a truncation. -/
theorem offers_of_perform {strict : Bool} {depth : ℕ} {reply : op.Reply} {next : KernelState}
    (hquiet : strict → depth = 0 → Op.Quiet kernel op)
    (hperform : perform proc answer op kernel = .ok reply next) : offers strict op depth reply := by
  cases op with
  | write inode offset data => exact ⟨_, (ensures_onData_write inode offset data).eq_ok hperform⟩
  | putCheck inode =>
    intro hstrict hdepth
    have hensures := ensures_putCheck_false inode (hquiet hstrict hdepth)
    exact hensures.eq_ok hperform
  | _ => trivial

end Perform

end RxOs.Effects
