import RxOs.Fs.LogUse
import RxOs.Syscall.Operations

/-!
# What the operations leave alone

The operations of the inode cache change neither the volume nor the descriptors
of a process, the operations on descriptors do not change the volume, and those
on the volume do not change descriptors.  None of the first two stops with the
panic of `Log::write`.
-/

namespace RxOs.KernelFrame

open Exec Params Blocks Dinode Inode Kernel LogUse Operations

/-- The descriptors of a process, the open files and the number that the next
open file gets. -/
structure Descriptors where
  openFiles : Fin nfile → Option ℕ
  files : ℕ → VFile
  nextFile : ℕ

def descriptors (kernel : KernelState) (proc : Proc) : Descriptors where
  openFiles := (kernel.procs proc).openFiles
  files := fun file => (kernel.files file).1
  nextFile := kernel.nextFile

/-- Code that changes neither the volume nor descriptors. -/
def calm : Guarantee KernelState Stop where
  rel := fun kernel next => next.vol = kernel.vol ∧ descriptors next = descriptors kernel
  stops := fun _ cause => cause ≠ .panic .logOutOfRecording
  refl := fun _ => ⟨rfl, rfl⟩
  trans := fun hfirst hsecond => ⟨hsecond.1.trans hfirst.1, hsecond.2.trans hfirst.2⟩
  stable := fun _ hstops => hstops

/-- Code that does not change the volume. -/
def still : Guarantee KernelState Stop where
  rel := fun kernel next => next.vol = kernel.vol
  stops := fun _ cause => cause ≠ .panic .logOutOfRecording
  refl := fun _ => rfl
  trans := fun hfirst hsecond => hsecond.trans hfirst
  stable := fun _ hstops => hstops

/-- Code that does not change descriptors. -/
def aside : Guarantee KernelState Stop where
  rel := fun kernel next => descriptors next = descriptors kernel
  stops := fun _ _ => True
  refl := fun _ => rfl
  trans := fun hfirst hsecond => hsecond.trans hfirst
  stable := fun _ _ => trivial

variable {Value : Type} {program : KernelM Value}

theorem still_of_calm (hcalm : Guarantees calm program) :
    Guarantees still program := fun kernel =>
  (hcalm kernel).imp (fun _ _ hrel => hrel.1) fun _ _ hstop => ⟨hstop.1.1, hstop.2⟩

theorem aside_of_calm (hcalm : Guarantees calm program) :
    Guarantees aside program := fun kernel =>
  (hcalm kernel).imp (fun _ _ hrel => hrel.2) fun _ _ hstop => ⟨hstop.1.2, trivial⟩

/-! ## The inode cache -/

theorem calm_cacheGet (inum : UInt32) : Guarantees calm (cacheGet inum) := by
  intro kernel
  rw [cacheGet, ensures_bind, ensures_get]
  split
  · exact calm.refl kernel
  · split
    · refine ensures_ite.mpr ⟨fun _ => ⟨calm.refl _, nofun⟩, fun _ => ?_⟩
      exact ensures_ite.mpr ⟨fun _ => ⟨calm.refl _, nofun⟩, fun _ => calm.refl kernel⟩
    · exact ⟨calm.refl _, nofun⟩

theorem calm_dupCwd (proc : Proc) : Guarantees calm (dupCwd proc) := by
  intro kernel
  rw [dupCwd, ensures_bind, ensures_get]
  split
  · exact ⟨calm.refl _, nofun⟩
  · exact calm.refl kernel

theorem calm_cacheUnlock (inode : Handle) : Guarantees calm (cacheUnlock inode) :=
  guarantees_modify fun kernel => calm.refl kernel

theorem calm_findInode (inum : UInt32) : Guarantees calm (onVolume (findInode inum)) := by
  intro kernel
  rw [onVolume, ensures_zoom, findInode]
  simp only [ensures_bind, ensures_get, SuperBlock.locateInode]
  split
  · exact ⟨calm.refl kernel, by rintro ⟨⟩⟩
  · exact calm.refl kernel

theorem calm_cacheLock (inode : Handle) : Guarantees calm (cacheLock inode) := by
  intro kernel
  rw [cacheLock]
  simp only [ensures_bind, ensures_get, ensures_ite, ensures_throw, ensures_set, ensures_pure]
  refine ⟨fun _ => ⟨calm.refl _, by rintro ⟨⟩⟩, fun _ => ⟨fun _ => calm.refl kernel, fun _ => ?_⟩⟩
  apply (calm_findInode inode.inum (kernel.setLocked inode.index true)).imp
  · intro found next hcalm
    simp only [ensures_modify]
    exact ⟨fun _ => ⟨hcalm, by rintro ⟨⟩⟩, fun _ => hcalm⟩
  · exact fun _ _ hstop => hstop

theorem calm_releaseRef (inode : Handle) : Guarantees calm (releaseRef inode) := by
  intro kernel
  rw [releaseRef, ensures_bind, ensures_get]
  exact ensures_ite.mpr ⟨fun _ => ⟨calm.refl _, nofun⟩, fun _ => calm.refl kernel⟩

theorem calm_putCheck (inode : Handle) : Guarantees calm (putCheck inode) := by
  have hrelease : Guarantees calm (do
      releaseRef inode
      return false) :=
    Guarantees.bind (calm_releaseRef inode) fun _ => guarantees_pure _
  intro kernel
  rw [putCheck, ensures_bind, ensures_get]
  refine ensures_ite.mpr ⟨fun _ => ?_, fun _ => hrelease kernel⟩
  refine ensures_ite.mpr ⟨fun _ => ⟨calm.refl _, nofun⟩, fun _ => ?_⟩
  refine ensures_ite.mpr ⟨fun _ => calm.refl kernel, fun _ => ?_⟩
  rw [ensures_bind, ensures_set]
  exact hrelease _

/-! ## Open files -/

theorem calm_openFile (proc : Proc) (fd : ℕ) : Guarantees calm (openFile proc fd) := by
  refine Guarantees.bind guarantees_get fun kernel => ?_
  split
  · split
    · exact guarantees_pure _
    · exact guarantees_throw fun _ => nofun
  · exact guarantees_throw fun _ => nofun

theorem calm_swapCwd (proc : Proc) (inode : Option Handle) :
    Guarantees calm (swapCwd proc inode) := by
  intro kernel
  refine ⟨rfl, funext fun other => ?_⟩
  change Descriptors.mk _ _ _ = Descriptors.mk _ _ _
  congr 1
  by_cases hother : other = proc
  · subst hother
    simp [KernelState.setProc]
  · simp [KernelState.setProc, hother]

theorem still_fdAlloc (proc : Proc) (file : VFile) : Guarantees still (fdAlloc proc file) := by
  intro kernel
  rw [fdAlloc, ensures_bind, ensures_get]
  split
  · exact rfl
  · exact rfl

theorem still_fdDup (proc : Proc) (fd : ℕ) : Guarantees still (fdDup proc fd) := by
  refine Guarantees.bind (still_of_calm (calm_openFile proc fd)) fun opened kernel => ?_
  rw [ensures_bind, ensures_get]
  split
  · exact ⟨rfl, nofun⟩
  · exact rfl

theorem still_fdTake (proc : Proc) (fd : ℕ) : Guarantees still (fdTake proc fd) := by
  intro kernel
  rw [fdTake, ensures_bind, ensures_get]
  split
  · split
    · exact rfl
    · exact rfl
  · exact ⟨rfl, nofun⟩

theorem still_advance (proc : Proc) (fd total : ℕ) : Guarantees still (advance proc fd total) := by
  refine Guarantees.bind (still_of_calm (calm_openFile proc fd)) fun opened kernel => ?_
  rw [ensures_bind, ensures_get]
  exact ensures_ite.mpr ⟨fun _ => ⟨rfl, nofun⟩, fun _ => rfl⟩

theorem still_forkFiles (parent child : Proc) : Guarantees still (forkFiles parent child) := by
  intro kernel
  rw [forkFiles, ensures_bind, ensures_get, ensures_bind, ensures_set]
  split
  · exact rfl
  · exact rfl

/-! ## Volume and inode data -/

theorem aside_onVolume (program : FsM Value) : Guarantees aside (onVolume program) := by
  intro kernel
  rw [onVolume, ensures_zoom]
  unfold Ensures
  split
  · exact rfl
  · exact ⟨rfl, trivial⟩

theorem aside_onData (inode : Handle) (method : InodeData → FsM (Value × InodeData)) :
    Guarantees aside (onData inode method) := by
  refine Guarantees.bind guarantees_get fun kernel => ?_
  refine Guarantees.bind (aside_onVolume _) fun result => ?_
  exact Guarantees.bind (guarantees_modify fun _ => rfl) fun _ => guarantees_pure _

/-! ## The operations -/

def Op.onVolume : Op → Bool
  | .beginOp | .endOp | .commit | .assign _ _ | .update _ | .read _ _ _
  | .write _ _ _ | .truncate _ | .allocInode _ | .putTruncate _ => true
  | _ => false

/-- The operations that change descriptors or the files behind them. -/
def Op.onTable : Op → Bool
  | .fdAlloc _ | .fdDup _ | .fdTake _ | .advance _ _ => true
  | _ => false

section Perform

variable {proc : Proc} {answer : Option ℕ} {op : Op}

theorem calm_perform (hvolume : Op.onVolume op = false) (htable : Op.onTable op = false)
    (hpanic : op ≠ .panic .logOutOfRecording) : Guarantees calm (perform proc answer op) := by
  cases op with
  | cacheGet inum => exact calm_cacheGet inum
  | dupCwd => exact calm_dupCwd proc
  | lock inode => exact calm_cacheLock inode
  | unlock inode => exact calm_cacheUnlock inode
  | view inode => exact Guarantees.bind guarantees_get fun _ => guarantees_pure _
  | putCheck inode => exact calm_putCheck inode
  | putFinish inode => exact calm_releaseRef inode
  | file fd =>
    exact Guarantees.bind (calm_openFile proc fd) fun _ =>
      Guarantees.bind guarantees_get fun _ => guarantees_pure _
  | replaceCwd | takeCwd => exact calm_swapCwd proc _
  | external => exact guarantees_pure answer
  | panic cause =>
    refine guarantees_throw fun _ heq => hpanic ?_
    rw [Stop.panic.inj heq]
  | fdAlloc | fdDup | fdTake | advance => cases htable
  | _ => cases hvolume

theorem still_perform (hop : Op.onVolume op = false) (hpanic : op ≠ .panic .logOutOfRecording) :
    Guarantees still (perform proc answer op) := by
  cases htable : Op.onTable op with
  | false => exact still_of_calm (calm_perform hop htable hpanic)
  | true =>
    cases op with
    | fdAlloc file => exact still_fdAlloc proc file
    | fdDup fd => exact still_fdDup proc fd
    | fdTake fd => exact still_fdTake proc fd
    | advance fd total => exact still_advance proc fd total
    | _ => cases htable

theorem aside_perform (hop : Op.onTable op = false) :
    Guarantees aside (perform proc answer op) := by
  by_cases hpanic : op = .panic .logOutOfRecording
  · subst hpanic
    exact guarantees_throw fun _ => trivial
  cases hvolume : Op.onVolume op with
  | false => exact aside_of_calm (calm_perform hvolume hop hpanic)
  | true =>
    cases op with
    | assign | update | read | write | truncate =>
      rw [perform]
      exact aside_onData _ _
    | beginOp | endOp | commit | allocInode => exact aside_onVolume _
    | putTruncate inode =>
      exact Guarantees.bind (aside_onData _ _) fun _ => aside_of_calm (calm_cacheUnlock inode)
    | _ => cases hvolume

end Perform

end RxOs.KernelFrame
