import RxOs.Syscall.File

/-!
# System calls that nobody interrupts

A single process executes its calls one operation after the other.  The rules
take an execution apart at its operations.
-/

namespace RxOs.Sequential

open Function Exec Interaction Params Blocks Dinode Inode LogState LogCommit
open LogCrash Kernel Operations

def execute {Value : Type} (proc : Proc) (program : Call Value) : KernelM Value :=
  program.run (perform proc none)

variable {Value Result : Type} {proc : Proc} {kernel next : KernelState}
variable {stopped : Stop → KernelState → Prop}

section Rules

variable {returned : Value → KernelState → Prop}

@[simp]
theorem ensures_execute_pure (value : Value) :
    Ensures (execute proc (pure value)) kernel returned stopped ↔
      returned value kernel := Iff.rfl

theorem ensures_execute_bind {program : Call Value} {rest : Value → Call Result}
    {returned : Result → KernelState → Prop} :
    Ensures (execute proc (program >>= rest)) kernel returned stopped ↔
      Ensures (execute proc program) kernel (fun value next =>
          Ensures (execute proc (rest value)) next returned stopped)
        stopped := by
  rw [execute, run_bind, ensures_bind]
  rfl

end Rules

theorem execute_bind_of_ok {program : Call Value} {rest : Value → Call Result}
    {value : Value} (hrun : execute proc program kernel = .ok value next) :
    execute proc (program >>= rest) kernel = execute proc (rest value) next := by
  rw [execute, run_bind]
  change EStateM.bind (execute proc program) _ kernel = _
  rw [EStateM.bind, hrun]
  rfl

@[simp]
theorem execute_act (op : Op) : execute proc (act op) = perform proc none op := by
  rw [execute, act, run_call]

theorem execute_act_map (op : Op) (change : op.Reply → Result) :
    execute proc (do
      let reply ← act op
      pure (change reply)) = change <$> perform proc none op := by
  rw [execute, run_bind, act, run_call, map_eq_pure_bind]
  rfl

/-! ## Methods of inode data -/

theorem ensures_onData {inode : Handle} {method : InodeData → FsM (Value × InodeData)}
    {returned : Value → KernelState → Prop} :
    Ensures (onData inode method) kernel returned stopped ↔
      Ensures (method (kernel.idatas inode.index)) kernel.vol (fun result vol => returned result.1
          ({ kernel with vol := vol }.setData inode.index result.2))
        (fun cause vol => stopped cause { kernel with vol := vol }) := by
  simp only [onData, ensures_bind, ensures_get, onVolume, ensures_zoom,
    ensures_modify, ensures_pure]

theorem onData_of_reads {inode : Handle}
    {method : InodeData → FsM (Value × InodeData)} {value : Value}
    (hmethod : method (kernel.idatas inode.index) kernel.vol =
      .ok (value, kernel.idatas inode.index) kernel.vol) :
    onData inode method kernel = .ok value kernel := by
  have hensures : Ensures (onData inode method) kernel
      (fun result next => result = value ∧ next = kernel) (fun _ _ => False) := by
    rw [ensures_onData]
    refine ensures_of_eq_ok hmethod ⟨rfl, ?_⟩
    rw [KernelState.setData, update_eq_self]
  obtain ⟨result, next, hrun, rfl, rfl⟩ := hensures.exists_ok
  exact hrun

theorem execute_bind (program : Call Value) (rest : Value → Call Result) :
    execute proc (program >>= rest) =
      execute proc program >>= fun value => execute proc (rest value) :=
  run_bind program rest

/-! ## A kernel with one open file -/

def openedInode : VFile where
  ftype := .inode
  readable := true
  writeable := true
  inode := some ⟨3, 0⟩
  offset := 0
  major := 0

/-- Every process has the file with inode number 3 open as descriptor 0. -/
def openKernel (vol : Volume) (dinode : DiskInode) : KernelState where
  vol := vol
  metas := fun index => if index = 0 then ⟨3, 1⟩ else ⟨0, 0⟩
  idatas := fun _ => ⟨true, 3, dinode⟩
  locked := fun _ => false
  files := fun _ => (openedInode, nproc)
  nextFile := 1
  procs := fun _ => { openFiles := fun fd => if fd.val = 0 then some 0 else none, cwd := none }

end RxOs.Sequential
