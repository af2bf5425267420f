import RxOs.Core.Transition
import RxOs.Syscall.Effects

/-!
# Processes that make system calls

Every process is in user mode or inside a system call, and any process inside a
call may perform its next operation, so that the operations of different calls
interleave in all possible ways.  An operation that sleeps is not possible, and
after a panic nothing is.
-/

namespace RxOs.System

open Function KernelFrame InodeCode ByteView Exec Interaction Transition Params
open BitMap Dinode Kernel LogUse Operations Directory File Transactions Effects

abbrev History := Trace Op Op.Reply

def depthOf (trace : History) : ℕ :=
  (rule false).situation 0 trace

inductive Thread
  | unused
  | user
  | running (call : Syscall) (trace : History) (rest : Call SysResult)
  | zombie

def Thread.depth : Thread → ℕ
  | .running _ trace _ => depthOf trace
  | _ => 0

/-- A process whose call returns is back in user mode, or a zombie. -/
def Thread.leave (call : Syscall) : Thread :=
  if call = .exit then .zombie else .user

@[simp]
theorem depthOf_nil : depthOf [] = 0 := rfl

@[simp]
theorem Thread.depth_unused : Thread.unused.depth = 0 := rfl

@[simp]
theorem Thread.depth_user : Thread.user.depth = 0 := rfl

@[simp]
theorem Thread.depth_zombie : Thread.zombie.depth = 0 := rfl

@[simp]
theorem Thread.depth_running (call : Syscall) (trace : History) (rest : Call SysResult) :
    (Thread.running call trace rest).depth = depthOf trace := rfl

@[simp]
theorem Thread.depth_leave (call : Syscall) : (Thread.leave call).depth = 0 := by
  unfold Thread.leave
  split
  · rfl
  · rfl

/-- The kernel and its processes.  `outside` counts the calls of `Log::write`
that were made outside the caller's own operation. -/
structure Machine where
  kernel : KernelState
  threads : Proc → Thread
  outside : ℕ
  halted : Option Panic

inductive Action
  | enter (proc : Proc) (call : Syscall)
  | proceed (proc : Proc) (answer : Option ℕ)
  | fork (parent child : Proc)
  | reap (proc : Proc)

/-- The calls of `Log::write` between two states, if they are made outside an
operation. -/
def stray (trace : History) (kernel next : KernelState) : ℕ :=
  if depthOf trace = 0 then
    logWrites next.vol.events - logWrites kernel.vol.events
  else 0

namespace Machine

def setThread (sys : Machine) (proc : Proc) (thread : Thread) : Machine :=
  { sys with threads := update sys.threads proc thread }

def proceed (sys : Machine) (proc : Proc) (answer : Option ℕ) : Option Machine :=
  match sys.threads proc with
  | .running call _ (.done _) => some (sys.setThread proc (.leave call))
  | .running call trace (.perform op rest) =>
    match perform proc answer op sys.kernel with
    | .ok reply kernel => some
        { sys.setThread proc
            (.running call (trace ++ [⟨op, reply⟩]) (rest reply)) with
          kernel := kernel
          outside := sys.outside + stray trace sys.kernel kernel }
    | .error .sleep _ => none
    | .error (.panic cause) kernel => some
        { sys with
          kernel := kernel
          outside := sys.outside + stray trace sys.kernel kernel
          halted := some cause }
  | _ => none

def fork (sys : Machine) (parent child : Proc) : Option Machine :=
  match sys.threads parent, sys.threads child with
  | .user, .unused =>
    match forkFiles parent child sys.kernel with
    | .ok _ kernel => some { sys.setThread child .user with kernel := kernel }
    | .error _ _ => none
  | _, _ => none

def step (sys : Machine) (action : Action) : Option Machine :=
  if sys.halted.isSome then none
  else
    match action with
    | .enter proc call =>
      match sys.threads proc with
      | .user => some (sys.setThread proc (.running call [] call.program))
      | _ => none
    | .proceed proc answer => sys.proceed proc answer
    | .fork parent child => sys.fork parent child
    | .reap proc =>
      match sys.threads proc with
      | .zombie => some (sys.setThread proc .unused)
      | _ => none

end Machine

inductive Moves (sys : Machine) : Action → Machine → Prop
  | enter (proc : Proc) (call : Syscall) (hthread : sys.threads proc = .user) :
      Moves sys (.enter proc call) (sys.setThread proc (.running call [] call.program))
  | leaves (proc : Proc) (call : Syscall) (trace : History) {answer : Option ℕ} {result : SysResult}
      (hthread : sys.threads proc = .running call trace (.done result)) :
      Moves sys (.proceed proc answer) (sys.setThread proc (.leave call))
  | performs (proc : Proc) (call : Syscall) (trace : History) (op : Op)
      (rest : op.Reply → Call SysResult) (reply : op.Reply)
      (kernel : KernelState) {answer : Option ℕ}
      (hthread : sys.threads proc = .running call trace (.perform op rest))
      (hperform : perform proc answer op sys.kernel = .ok reply kernel) :
      Moves sys (.proceed proc answer)
        { sys.setThread proc
            (.running call (trace ++ [⟨op, reply⟩]) (rest reply)) with
          kernel := kernel
          outside := sys.outside + stray trace sys.kernel kernel }
  | panics (proc : Proc) (call : Syscall) (trace : History) (op : Op)
      (rest : op.Reply → Call SysResult) (cause : Panic) (kernel : KernelState) {answer : Option ℕ}
      (hthread : sys.threads proc = .running call trace (.perform op rest))
      (hperform : perform proc answer op sys.kernel = .error (.panic cause) kernel) :
      Moves sys (.proceed proc answer)
        { sys with
          kernel := kernel
          outside := sys.outside + stray trace sys.kernel kernel
          halted := some cause }
  | forks (parent child : Proc) (kernel : KernelState) (hchild : sys.threads child = .unused)
      (hfork : forkFiles parent child sys.kernel = .ok () kernel) : Moves sys (.fork parent child)
        { sys.setThread child .user with kernel := kernel }
  | reaps (proc : Proc) (hthread : sys.threads proc = .zombie) :
      Moves sys (.reap proc) (sys.setThread proc .unused)

theorem proceed_moves {sys next : Machine} {proc : Proc} {answer : Option ℕ}
    (hproceed : sys.proceed proc answer = some next) : Moves sys (.proceed proc answer) next := by
  unfold Machine.proceed at hproceed
  split at hproceed
  · next hthread =>
      cases hproceed
      exact .leaves proc _ _ hthread
  · next hthread =>
      split at hproceed
      · next hperform =>
          cases hproceed
          exact .performs proc _ _ _ _ _ _ hthread hperform
      · cases hproceed
      · next hperform =>
          cases hproceed
          exact .panics proc _ _ _ _ _ _ hthread hperform
  · cases hproceed

theorem fork_moves {sys next : Machine} {parent child : Proc}
    (hfork : sys.fork parent child = some next) : Moves sys (.fork parent child) next := by
  unfold Machine.fork at hfork
  split at hfork
  · next hchild =>
      split at hfork
      · next hfiles =>
          cases hfork
          exact .forks parent child _ hchild hfiles
      · cases hfork
  · cases hfork

/-- The inversion of `step`. -/
theorem step_moves {sys next : Machine} {action : Action} (hstep : sys.step action = some next) :
    sys.halted = none ∧ Moves sys action next := by
  unfold Machine.step at hstep
  split at hstep
  · cases hstep
  · next hhalted =>
      refine ⟨by simpa using hhalted, ?_⟩
      cases action with
      | enter proc call =>
        simp only at hstep
        split at hstep
        · next hthread =>
            cases hstep
            exact .enter proc call hthread
        · cases hstep
      | proceed proc answer => exact proceed_moves hstep
      | fork parent child => exact fork_moves hstep
      | reap proc =>
        simp only at hstep
        split at hstep
        · next hthread =>
            cases hstep
            exact .reaps proc hthread
        · cases hstep

/-! ## Histories -/

/-- No process is inside a system call, and nothing has happened yet. -/
structure AtRest (sys : Machine) : Prop where
  threads : ∀ proc, sys.threads proc ≠ .unused → sys.threads proc = .user
  outside : sys.outside = 0
  halted : sys.halted = none

/-- The history of a process is one of its call, with replies as the rule
expects them. -/
def Thread.Consistent (strict : Bool) : Thread → Prop
  | .running call trace rest => Walk call.program trace rest ∧ (rule strict).Offered 0 trace
  | _ => True

/-- The operation that a step performs, and the history before it. -/
def Machine.pending (sys : Machine) : Action → Option (History × Op)
  | .proceed proc _ =>
    match sys.threads proc with
    | .running _ trace (.perform op _) => some (trace, op)
    | _ => none
  | _ => none

/-- An operation that is performed at depth zero finds a quiet state. -/
def Machine.Quiet (sys : Machine) (action : Action) : Prop :=
  ∀ pending ∈ sys.pending action, depthOf pending.1 = 0 → Op.Quiet sys.kernel pending.2

instance (sys : Machine) (action : Action) : Decidable (sys.Quiet action) :=
  inferInstanceAs (Decidable (∀ pending ∈ sys.pending action,
    depthOf pending.1 = 0 → Op.Quiet sys.kernel pending.2))

theorem Machine.Quiet.of_running {sys : Machine} {proc : Proc}
    {answer : Option ℕ} {call : Syscall} {trace : History} {op : Op}
    {rest : op.Reply → Call SysResult} (hquiet : sys.Quiet (.proceed proc answer))
    (hthread : sys.threads proc = .running call trace (.perform op rest))
    (hdepth : depthOf trace = 0) : Op.Quiet sys.kernel op := by
  refine hquiet (trace, op) ?_ hdepth
  rw [Machine.pending, hthread]
  exact Option.mem_some_self _

theorem consistent_leave (strict : Bool) (call : Syscall) :
    (Thread.leave call).Consistent strict := by
  unfold Thread.leave
  split
  · trivial
  · trivial

theorem Thread.Consistent.performs {strict : Bool} {call : Syscall}
    {trace : History} {op : Op} {rest : op.Reply → Call SysResult} {reply : op.Reply}
    (hconsistent : (Thread.running call trace (.perform op rest)).Consistent
      strict) (hoffers : offers strict op (depthOf trace) reply) :
    (Thread.running call (trace ++ [⟨op, reply⟩]) (rest reply)).Consistent
      strict := by
  obtain ⟨hwalk, hoffered⟩ := hconsistent
  exact ⟨hwalk.snoc reply, Rule.offered_append.mpr ⟨hoffered, hoffers, trivial⟩⟩

theorem forall_setThread (property : Thread → Prop) {sys : Machine}
    {proc : Proc} {thread : Thread} (hall : ∀ other, property (sys.threads other))
    (hthread : property thread) (other : Proc) :
    property ((sys.setThread proc thread).threads other) := by
  change property (update sys.threads proc thread other)
  by_cases hsame : other = proc
  · subst hsame
    rwa [update_self]
  · rw [update_of_ne hsame]
    exact hall other

/-- Histories stay consistent, under the strict rule as long as every step is
quiet. -/
theorem step_consistent {strict : Bool} {sys next : Machine} {action : Action}
    (hconsistent : ∀ proc, (sys.threads proc).Consistent strict)
    (hquiet : strict → sys.Quiet action) (hstep : sys.step action = some next)
    (proc : Proc) : (next.threads proc).Consistent strict := by
  obtain ⟨-, hmoves⟩ := step_moves hstep
  cases hmoves with
  | enter caller call hthread =>
    refine forall_setThread (Thread.Consistent strict) hconsistent ?_ proc
    exact ⟨.start _, trivial⟩
  | leaves caller call trace hthread =>
    exact forall_setThread (Thread.Consistent strict) hconsistent
      (consistent_leave strict call) proc
  | performs caller call trace op rest reply kernel hthread hperform =>
    have hcaller := hconsistent caller
    rw [hthread] at hcaller
    refine forall_setThread (Thread.Consistent strict) hconsistent (hcaller.performs ?_) proc
    exact offers_of_perform (fun hstrict => (hquiet hstrict).of_running hthread) hperform
  | panics => exact hconsistent proc
  | _ =>
    refine forall_setThread (Thread.Consistent strict) hconsistent ?_ proc
    trivial

theorem AtRest.consistent {sys : Machine} (hrest : AtRest sys) (strict : Bool)
    (proc : Proc) : (sys.threads proc).Consistent strict := by
  by_cases hunused : sys.threads proc = .unused
  · rw [hunused]
    trivial
  · rw [hrest.threads proc hunused]
    trivial

/-- Every system call obeys the rules. -/
theorem obeys_program (strict : Bool) (call : Syscall) :
    Obeys (rule strict) call.program 0 fun _ _ => True := by
  have hany : ∀ {Value : Type} {program : Call Value} {depth now : ℕ},
      (Obeys (rule strict) program depth fun _ after => after = now) →
      Obeys (rule strict) program depth fun _ _ => True :=
    fun hobeys => hobeys.imp fun _ _ _ => trivial
  cases call with
  | dup fd => exact hany (keeps_sysDup fd)
  | read fd len => exact hany (keeps_sysRead fd len)
  | write fd data => exact hany (keeps_sysWrite fd data)
  | pipe => exact hany keeps_sysPipe
  | «open» path openMode => exact hany (keeps_sysOpen path openMode)
  | mknod path major minor => exact hany (keeps_sysMknod path major minor)
  | close fd => exact hany (keeps_sysClose fd)
  | fstat fd => exact hany (keeps_sysFstat fd)
  | chdir path => exact hany (keeps_sysChdir path)
  | mkdir path => exact hany (keeps_sysMkdir path)
  | link oldPath newPath => exact hany (keeps_sysLink oldPath newPath)
  | exit => exact hany keeps_sysExit
  | unlink path =>
    refine obeys_bind.mpr ⟨⟨nofun, nofun, nofun⟩, fun _ _ => ?_⟩
    refine Obeys.bind (keeps_inner (inner_namex path true)) ?_
    rintro ⟨_ | parent, name⟩ now rfl
    · trivial
    · exact hany (closes_unlinkIn parent name)
  | exec path argc =>
    change Obeys (rule strict) (sysExec path argc) 0 _
    unfold sysExec
    split
    · trivial
    refine obeys_bind.mpr ⟨⟨nofun, nofun, nofun⟩, fun _ _ => ?_⟩
    refine Obeys.bind (keeps_inner (inner_namei path)) ?_
    rintro (_ | inode) now rfl
    · trivial
    · exact hany (closes_execInode inode)

/-! ## Open operations -/

namespace Machine

def inside (sys : Machine) : ℕ :=
  ∑ proc, (sys.threads proc).depth

def returning (sys : Machine) : Action → Option (Syscall × History)
  | .proceed proc _ =>
    match sys.threads proc with
    | .running call trace (.done _) => some (call, trace)
    | _ => none
  | _ => none

def leak (sys : Machine) (action : Action) : ℕ :=
  match sys.returning action with
  | some (_, trace) => depthOf trace
  | none => 0

theorem inside_setThread (sys : Machine) (proc : Proc) (thread : Thread) :
    (sys.setThread proc thread).inside + (sys.threads proc).depth = sys.inside + thread.depth := by
  have hupdate : (fun other => (update sys.threads proc thread other).depth) =
      update (fun other => (sys.threads other).depth) proc thread.depth := by
    funext other
    exact apply_update (fun _ => Thread.depth) sys.threads proc thread other
  change (∑ other, (update sys.threads proc thread other).depth) +
    (sys.threads proc).depth = (∑ other, (sys.threads other).depth) + thread.depth
  rw [hupdate, Finset.sum_update_of_mem (Finset.mem_univ proc),
    ← Finset.sum_sdiff (Finset.subset_univ {proc}), Finset.sum_singleton]
  omega

end Machine

theorem depthOf_append (trace : History) (op : Op) (reply : op.Reply) :
    depthOf (trace ++ [⟨op, reply⟩]) = depthAfter op (depthOf trace) :=
  Rule.situation_append (rule false) 0 trace [⟨op, reply⟩]

/-- An operation moves all depths by the same amount. -/
theorem depthAfter_shift {op : Op} {left right : ℕ} (hleft : Op.kind op = .closes → 0 < left)
    (hright : Op.kind op = .closes → 0 < right) :
    depthAfter op left + right = left + depthAfter op right := by
  unfold depthAfter
  cases hkind : Op.kind op with
  | closes =>
    have := hleft hkind
    have := hright hkind
    simp only
    omega
  | opens =>
    simp only
    omega
  | _ => rfl

theorem Thread.Consistent.permits {strict : Bool} {call : Syscall}
    {trace : History} {op : Op} {rest : op.Reply → Call SysResult}
    (hconsistent : (Thread.running call trace (.perform op rest)).Consistent
      strict) : permits strict op (depthOf trace) :=
  ((obeys_program strict call).walk hconsistent.1 hconsistent.2).2.1

/-- The number of open operations is the number of operations that processes are
inside of, up to those that were left open. -/
theorem step_outstanding {strict : Bool} {sys next : Machine} {action : Action}
    (hconsistent : ∀ proc, (sys.threads proc).Consistent strict)
    (hstep : sys.step action = some next) (hhalted : next.halted = none) :
    next.kernel.outstanding + sys.inside =
      sys.kernel.outstanding + next.inside + sys.leak action := by
  obtain ⟨-, hmoves⟩ := step_moves hstep
  cases hmoves with
  | enter caller call hthread =>
    have hinside := sys.inside_setThread caller (.running call [] call.program)
    have hleak : sys.leak (.enter caller call) = 0 := rfl
    rw [hthread, Thread.depth_user, Thread.depth_running, depthOf_nil] at hinside
    rw [hleak]
    change sys.kernel.outstanding + sys.inside =
      sys.kernel.outstanding + (sys.setThread caller _).inside + 0
    omega
  | leaves caller call trace hthread =>
    have hinside := sys.inside_setThread caller (.leave call)
    rw [hthread, Thread.depth_leave, Thread.depth_running] at hinside
    rw [Machine.leak, Machine.returning, hthread]
    change sys.kernel.outstanding + sys.inside = sys.kernel.outstanding +
      (sys.setThread caller (.leave call)).inside + depthOf trace
    omega
  | performs caller call trace op rest reply kernel hthread hperform =>
    have hcaller := hconsistent caller
    rw [hthread] at hcaller
    obtain ⟨hforeign, hcloses, -⟩ := hcaller.permits
    obtain ⟨houtstanding, hopen⟩ := (ensures_perform hforeign).eq_ok hperform
    have hinside := sys.inside_setThread caller
      (.running call (trace ++ [⟨op, reply⟩]) (rest reply))
    rw [hthread, Thread.depth_running, Thread.depth_running, depthOf_append] at hinside
    rw [Machine.leak, Machine.returning, hthread]
    change kernel.outstanding + sys.inside = sys.kernel.outstanding +
      (sys.setThread caller _).inside + 0
    have hshift := depthAfter_shift hcloses hopen
    omega
  | panics => cases hhalted
  | forks parent child kernel hchild hfork =>
    have hinside := sys.inside_setThread child .user
    have hleak : sys.leak (.fork parent child) = 0 := rfl
    have hsame : kernel.outstanding = sys.kernel.outstanding :=
      ((silent_of_still (still_forkFiles parent child) sys.kernel).eq_ok hfork).1
    rw [hchild, Thread.depth_user, Thread.depth_unused] at hinside
    rw [hleak]
    change kernel.outstanding + sys.inside =
      sys.kernel.outstanding + (sys.setThread child .user).inside + 0
    omega
  | reaps caller hthread =>
    have hinside := sys.inside_setThread caller .unused
    have hleak : sys.leak (.reap caller) = 0 := rfl
    rw [hthread, Thread.depth_zombie, Thread.depth_unused] at hinside
    rw [hleak]
    change sys.kernel.outstanding + sys.inside =
      sys.kernel.outstanding + (sys.setThread caller .unused).inside + 0
    omega

theorem AtRest.inside_eq {sys : Machine} (hrest : AtRest sys) : sys.inside = 0 := by
  refine Finset.sum_eq_zero fun proc _ => ?_
  by_cases hunused : sys.threads proc = .unused
  · rw [hunused, Thread.depth_unused]
  · rw [hrest.threads proc hunused, Thread.depth_user]

/-! ## A small machine -/

def rootInode : DiskInode where
  itype := .directory
  major := 0
  minor := 0
  nlink := 1
  size := 48
  addrs := fun slot => if slot.val = 0 then 40 else 0

def fileInode : DiskInode where
  itype := .file
  major := 0
  minor := 0
  nlink := 1
  size := 0
  addrs := fun _ => 0

/-- The entries of the root directory: `.`, `..` and a file `f`. -/
def rootEntries : List UInt8 :=
  encodeEntry 1 [46] ++ encodeEntry 1 [46, 46] ++ encodeEntry 2 [102]

def bootDisk : ℕ → Block :=
  update (update (fun blockno index => if blockno = 33 ∧ index.val < 6 then 255 else 0)
      32 (DiskInode.store (DiskInode.store (fun _ => 0) 64 rootInode) 128 fileInode))
    40 (splice (fun _ => 0) 0 rootEntries)

/-- The kernel after boot.  Two processes have the root directory as their
current directory. -/
def bootKernel : KernelState where
  vol :=
    { sb := sampleSb
      logged :=
        { log :=
            { start := 2
              size := 30
              outstanding := 0
              commiting := false
              lh := { len := 0, blocknos := fun _ => 0 } }
          bufs := .boot bootDisk }
      events := [] }
  metas := fun index => if index = 0 then ⟨1, 2⟩ else ⟨0, 0⟩
  idatas := fun _ => ⟨false, 0, DiskInode.new⟩
  locked := fun _ => false
  files := fun _ => (⟨.none, false, false, none, 0, 0⟩, 0)
  nextFile := 0
  procs := fun proc =>
    { openFiles := fun _ => none
      cwd := if proc.val < 2 then some ⟨1, 0⟩ else none }

def bootMachine : Machine where
  kernel := bootKernel
  threads := fun proc => if proc.val < 2 then .user else .unused
  outside := 0
  halted := none

theorem atRest_bootMachine : AtRest bootMachine := by
  refine ⟨fun proc hused => ?_, rfl, rfl⟩
  change (if proc.val < 2 then Thread.user else Thread.unused) = .user
  split
  · rfl
  · next hproc => exact absurd (if_neg hproc) hused

def soloCall (call : Syscall) (steps : ℕ) : List Action :=
  .enter 0 call :: List.replicate steps (.proceed 0 none)

end RxOs.System
