import RxOs.Syscall.Sequential
import RxOs.Syscall.System

/-!
# The calls on descriptors

The operations of a call see the descriptor table of its process: looking up a
descriptor that is not open, using up the last free one in `sys_dup` and moving
an offset past its type panic.  A rule over the table says which operations do
not, what they reply and how the table changes; the kernel performs operations
as the rule says, or stops in a layer below the table.  As long as no layer
below stops, each call returns, validates its descriptor and changes the table
as a whole or not at all under the condition stated for it.
-/

namespace RxOs.DescriptorCalls

open Function Exec Interaction Params Blocks BitMap Dinode Inode Kernel Operations
open Directory File InodeCode LogUse KernelFrame RxOs.Sequential

/-! ## The table -/

def numberAt (table : Descriptors) (fd : ℕ) : Option ℕ :=
  if h : fd < nfile then table.openFiles ⟨fd, h⟩ else none

def fileAt (table : Descriptors) (fd : ℕ) : Option VFile :=
  (numberAt table fd).map table.files

def free (table : Descriptors) : List (Fin nfile) :=
  (List.finRange nfile).filter fun fd => (table.openFiles fd).isNone

def install (table : Descriptors) (fd : Fin nfile) (file : Option ℕ) : Descriptors :=
  { table with openFiles := update table.openFiles fd file }

theorem head?_free (kernel : KernelState) (proc : Proc) :
    (free (descriptors kernel proc)).head? = (kernel.procs proc).unallocated := by
  rw [free, List.head?_filter]
  rfl

def permits (strict : Bool) (op : Op) (table : Descriptors) : Prop :=
  match op with
  | .file fd => (fileAt table fd).isSome
  | .fdDup fd => (fileAt table fd).isSome ∧ free table ≠ []
  | .fdTake fd => fd < nfile
  | .advance fd total => ∃ file, fileAt table fd = some file ∧
      file.offset.toNat + total < 4294967296
  | .panic _ => strict = false
  | _ => True

/-- What the operations reply.  `answer` is the outcome of code outside the file
system. -/
def offers (answer : Option ℕ) : (op : Op) → Descriptors → op.Reply → Prop
  | .file fd, table, reply => fileAt table fd = some reply
  | .fdAlloc _, table, reply => reply = (free table).head?.map Fin.val
  | .fdDup _, table, reply => (free table).head?.map Fin.val = some reply
  | .read _ offset _, _, reply => ∀ bytes, reply = Except.ok bytes →
      offset.toNat + bytes.length < 4294967296
  | .write _ _ data, _, reply => reply = Except.ok data.length
  | .external, _, reply => reply = answer
  | _, _, _ => True

def after (op : Op) (table : Descriptors) : Descriptors :=
  match op with
  | .fdAlloc file =>
    match (free table).head? with
    | none => table
    | some fd => { install table fd (some table.nextFile) with
        files := update table.files table.nextFile file
        nextFile := table.nextFile + 1 }
  | .fdDup fd =>
    match (free table).head? with
    | none => table
    | some newFd => install table newFd (numberAt table fd)
  | .fdTake fd => if h : fd < nfile then install table ⟨fd, h⟩ none else table
  | .advance fd total =>
    match numberAt table fd with
    | none => table
    | some number => { table with
        files := update table.files number
          { table.files number with
            offset := (table.files number).offset + .ofNat total } }
  | _ => table

/-- The rule.  Panics that a call raises itself are forbidden if it is
strict. -/
def rule (strict : Bool) (answer : Option ℕ) : Rule Op Op.Reply Descriptors where
  permits := permits strict
  offers := offers answer
  after := fun op table _ => after op table

/-- The operations of the layers below the table.  For a call that is not strict
its own panics are among them. -/
def Op.below (strict : Bool) : Op → Bool
  | .file _ | .fdAlloc _ | .fdDup _ | .fdTake _ | .advance _ _ => false
  | .panic _ => !strict
  | _ => true

section Perform

variable {proc : Proc} {answer : Option ℕ} {kernel : KernelState} {op : Op}
variable {fd number : ℕ}

@[simp]
theorem descriptors_install (slot : Fin nfile) (file : Option ℕ) :
    descriptors (kernel.install proc slot file) proc =
      install (descriptors kernel proc) slot file := by
  simp [descriptors, install, KernelState.install, KernelState.setProc]

@[simp]
theorem descriptors_setFile (file : ℕ) (entry : VFile × ℕ) :
    descriptors (kernel.setFile file entry) proc =
      { descriptors kernel proc with
        files := update (descriptors kernel proc).files file entry.1 } := by
  rw [descriptors, descriptors]
  congr 1
  exact comp_update Prod.fst kernel.files file entry

theorem openFile_eq_ok (hnumber : numberAt (descriptors kernel proc) fd = some number) :
    ∃ hfd : fd < nfile, openFile proc fd kernel = .ok (⟨fd, hfd⟩, number) kernel := by
  rw [numberAt] at hnumber
  split at hnumber
  · next hfd =>
      refine ⟨hfd, ?_⟩
      change (if h : fd < nfile then _ else _ : KernelM (Fin nfile × ℕ)) kernel = _
      rw [dif_pos hfd]
      change (kernel.procs proc).openFiles ⟨fd, hfd⟩ = some number at hnumber
      rw [hnumber]
      rfl
  · cases hnumber

theorem isSome_fileAt {table : Descriptors} :
    (fileAt table fd).isSome ↔ ∃ number, numberAt table fd = some number := by
  rw [fileAt, Option.isSome_map, Option.isSome_iff_exists]

theorem ensures_openFile {returned : Fin nfile × ℕ → KernelState → Prop}
    {stopped : Stop → KernelState → Prop} (hopen : (fileAt (descriptors kernel proc) fd).isSome)
    (hreturned : ∀ hfd number, numberAt (descriptors kernel proc) fd = some number →
        returned (⟨fd, hfd⟩, number) kernel) :
    Ensures (openFile proc fd) kernel returned stopped := by
  obtain ⟨number, hnumber⟩ := isSome_fileAt.mp hopen
  obtain ⟨hfd, hrun⟩ := openFile_eq_ok hnumber
  exact ensures_of_eq_ok hrun (hreturned hfd number hnumber)

/-- The kernel performs the operations as the rule says, or stops below the
table. -/
theorem ensures_perform {strict : Bool} (hpermits : permits strict op (descriptors kernel proc)) :
    Ensures (perform proc answer op) kernel
      (fun reply next => offers answer op (descriptors kernel proc) reply ∧
        descriptors next proc = after op (descriptors kernel proc))
      fun _ _ => Op.below strict op = true := by
  have haside : Op.onTable op = false → Ensures (perform proc answer op) kernel
        (fun _ next => descriptors next proc = descriptors kernel proc)
        fun _ _ => True := fun hop =>
    (aside_perform hop kernel).imp (fun _ _ hrel => congrFun hrel proc) fun _ _ _ => trivial
  cases op with
  | file fd =>
    refine Ensures.bind (ensures_openFile hpermits ?_) fun _ _ hreturned => hreturned
    intro hfd number hnumber
    refine ⟨?_, rfl⟩
    change (numberAt (descriptors kernel proc) fd).map _ = _
    rw [hnumber]
    rfl
  | fdAlloc file =>
    rw [perform, fdAlloc, ensures_bind, ensures_get, ← head?_free]
    simp only [offers, after]
    cases (free (descriptors kernel proc)).head? with
    | none => exact ⟨rfl, rfl⟩
    | some slot =>
      refine ⟨rfl, ?_⟩
      change { descriptors (KernelState.install _ proc slot _) proc with
        nextFile := kernel.nextFile + 1 } = _
      rw [descriptors_install, descriptors_setFile]
      rfl
  | fdDup fd =>
    rw [perform, fdDup]
    refine Ensures.bind (ensures_openFile hpermits.1 ?_) fun _ _ hreturned => hreturned
    intro hfd number hnumber
    rw [ensures_bind, ensures_get, ← head?_free]
    simp only [offers, after, hnumber]
    cases hhead : (free (descriptors kernel proc)).head? with
    | none => exact absurd (List.head?_eq_none_iff.mp hhead) hpermits.2
    | some slot =>
      refine ⟨rfl, ?_⟩
      rw [descriptors_install, descriptors_setFile]
      exact congrArg (fun files => install
        { descriptors kernel proc with files := files } slot (some number))
        (update_eq_self number (descriptors kernel proc).files)
  | fdTake fd =>
    change fd < nfile at hpermits
    rw [perform, fdTake, ensures_bind, ensures_get, dif_pos hpermits]
    simp only [offers, after, true_and, dif_pos hpermits]
    split
    · next hnone =>
        change descriptors kernel proc = install _ _ none
        rw [install]
        exact congrArg (fun openFiles => { descriptors kernel proc with openFiles := openFiles })
          (update_eq_self_iff.mpr hnone.symm).symm
    · next number hsome =>
        change descriptors (KernelState.install _ proc _ _) proc = _
        rw [descriptors_install, descriptors_setFile]
        exact congrArg (fun files => install { descriptors kernel proc with files := files } _ none)
          (update_eq_self number (descriptors kernel proc).files)
  | advance fd total =>
    obtain ⟨file, hfile, hroom⟩ := hpermits
    rw [perform, advance]
    refine Ensures.bind (ensures_openFile (by rw [hfile]; rfl) ?_) fun _ _ hreturned => hreturned
    intro hfd number hnumber
    simp only [fileAt, hnumber, Option.map_some, Option.some.injEq] at hfile
    subst hfile
    rw [ensures_bind, ensures_get, ensures_ite]
    refine ⟨fun hoverflow => absurd hroom (Nat.not_lt.mpr hoverflow), fun _ => ⟨trivial, ?_⟩⟩
    simp only [after, hnumber]
    exact descriptors_setFile number _
  | read inode offset count =>
    have hbound : Ensures (onData inode (·.read offset count)) kernel
        (fun reply _ => offers answer (.read inode offset count)
          (descriptors kernel proc) reply) fun _ _ => True :=
      ensures_onData.mpr (ensures_read_bound _ offset count kernel.vol)
    exact (hbound.and (haside rfl)).imp (fun _ _ h => h) fun _ _ _ => rfl
  | write inode offset data =>
    have hwritten : Ensures (onData inode (·.write offset data)) kernel
        (fun reply _ => reply = .ok data.length) fun _ _ => True :=
      ensures_onData.mpr (ensures_write_ok _ offset data kernel.vol)
    exact (hwritten.and (haside rfl)).imp (fun _ _ h => h) fun _ _ _ => rfl
  | external => exact ⟨rfl, rfl⟩
  | panic cause => exact (Bool.not_eq_true' strict).mpr hpermits
  | _ => exact (haside rfl).imp (fun _ _ h => ⟨trivial, h⟩) fun _ _ _ => rfl

/-- No layer below the table stops while the kernel performs the program. -/
def served {Value : Type} (strict : Bool) (proc : Proc) (answer : Option ℕ) :
    Call Value → KernelState → Bool
  | .done _, _ => true
  | .perform op rest, kernel =>
    match perform proc answer op kernel with
    | .ok reply next => served strict proc answer (rest reply) next
    | .error _ _ => !Op.below strict op

end Perform

/-! ## The rule on parts of calls -/

section Parts

variable {Value : Type} {strict : Bool} {answer : Option ℕ} {table : Descriptors}
variable {returned : Value → Descriptors → Prop}

def Quiet (strict : Bool) (program : Call Value) : Prop :=
  Only (fun op => Op.below strict op = true) program

theorem Quiet.obeys_bind {Result : Type} {program : Call Result}
    {next : Result → Call Value} (hquiet : Quiet strict program)
    (hnext : ∀ value, Obeys (rule strict answer) (next value) table returned) :
    Obeys (rule strict answer) (program >>= next) table returned := by
  refine Interaction.obeys_bind.mpr ((Only.obeys hquiet ?_ ?_).imp ?_)
  · intro op hop
    cases op with
    | panic cause => exact (Bool.not_eq_true' strict).mp hop
    | _ => trivial
  · intro op _ hop
    cases op <;> first | rfl | cases hop
  · rintro value now rfl
    exact hnext value

end Parts

/-! ## Reading and writing -/

section Calls

variable {answer : Option ℕ} {table : Descriptors} {fd : ℕ} {file : VFile}
variable {returned : SysResult → Descriptors → Prop}

/-- The descriptors of a list are new, and the others are as they were. -/
structure Gains (slots : List (Fin nfile)) (table now : Descriptors) :
    Prop where
  installed : ∀ fd ∈ slots, (now.openFiles fd).isSome
  kept : ∀ fd ∉ slots, now.openFiles fd = table.openFiles fd

/-- The call returns the lowest free descriptor, which is new, or an error with
the table unchanged. -/
def GainsOne (table : Descriptors) (result : SysResult) (now : Descriptors) : Prop :=
  (∃ fd, (free table).head? = some fd ∧ result = .ok fd.val ∧ Gains [fd] table now) ∨
  result = .error () ∧ now.openFiles = table.openFiles

/-- The call succeeds and the two lowest free descriptors are new, or it returns
an error with the table unchanged. -/
def GainsTwo (table : Descriptors) (result : SysResult) (now : Descriptors) : Prop :=
  (∃ rf wf value, (free table).take 2 = [rf, wf] ∧ result = .ok value ∧ Gains [rf, wf] table now) ∨
  result = .error () ∧ now.openFiles = table.openFiles

theorem Gains.append {left right : List (Fin nfile)}
    {middle now : Descriptors} (hleft : Gains left table middle)
    (hright : Gains right middle now) : Gains (left ++ right) table now := by
  refine ⟨fun fd hmem => ?_, fun fd hmem => ?_⟩
  · by_cases hlast : fd ∈ right
    · exact hright.installed fd hlast
    · rw [hright.kept fd hlast]
      exact hleft.installed fd ((List.mem_append.mp hmem).resolve_right hlast)
  · rw [List.mem_append, not_or] at hmem
    rw [hright.kept fd hmem.2, hleft.kept fd hmem.1]

end Calls

/-! ## The calls in the kernel -/

def OpenFor (direction : VFile → Bool) (table : Descriptors) (fd : ℕ) : Prop :=
  ∃ file, fileAt table fd = some file ∧ direction file = true

/-- What is asked of the result of a call and the table behind it: an error
unless the descriptor is open for the direction, and all new descriptors or
none. -/
def Answers (table : Descriptors) (result : SysResult) (now : Descriptors) : Syscall → Prop
  | .read fd _ => OpenFor VFile.readable table fd ∨ result = .error ()
  | .write fd _ => OpenFor VFile.writeable table fd ∨ result = .error ()
  | .fstat fd | .close fd => OpenFor (fun _ => true) table fd ∨ result = .error ()
  | .dup fd => (OpenFor (fun _ => true) table fd ∨ result = .error ()) ∧ GainsOne table result now
  | .pipe => GainsTwo table result now
  | .open _ _ => GainsOne table result now
  | _ => True

/-- The call returns, and as it should. -/
def Proper (proc : Proc) (answer : Option ℕ) (kernel : KernelState) (call : Syscall) : Prop :=
  ∃ result next, call.program.run (perform proc answer) kernel = .ok result next ∧
    Answers (descriptors kernel proc) result (descriptors next proc) call

/-- The panics of `sys_open` come from the layers below, where `create` raises
them. -/
def strict : Syscall → Bool
  | .open _ _ => false
  | _ => true

end RxOs.DescriptorCalls
