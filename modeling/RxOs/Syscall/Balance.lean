import RxOs.Syscall.System

/-!
# Operations begun and ended

A system call that returns has ended as many operations as it has begun, except
for `unlink` when the parent directory is not found and `exec` when the file is
not found: both return between `begin_op` and `end_op`.
-/

namespace RxOs.Balance

open Function InodeCode Interaction Transition Exec Params Kernel Operations
open Directory File Transactions Effects RxOs.System

/-- The calls of `begin_op` in a history. -/
def begins (trace : History) : ℕ :=
  trace.countP fun entry => Op.kind entry.1 = .opens

/-- The calls of `end_op` in a history. -/
def ends (trace : History) : ℕ :=
  trace.countP fun entry => Op.kind entry.1 = .closes

/-- The depth is the difference of the two counts. -/
theorem begins_eq_add_ends {strict : Bool} {trace : History} {first : ℕ}
    (hpermitted : (rule strict).Permitted first trace) :
    first + begins trace = (rule strict).situation first trace + ends trace := by
  induction trace generalizing first with
  | nil => rfl
  | cons entry trace ih =>
    obtain ⟨hpermits, hrest⟩ := hpermitted
    have hcount := ih hrest
    have hcloses := hpermits.2.1
    change first + begins (entry :: trace) =
      (rule strict).situation (depthAfter entry.1 first) trace + ends (entry :: trace)
    change depthAfter entry.1 first + begins trace =
      (rule strict).situation (depthAfter entry.1 first) trace + ends trace at hcount
    unfold begins ends at hcount ⊢
    rw [List.countP_cons, List.countP_cons]
    unfold depthAfter at hcount ⊢
    cases hkind : Op.kind entry.1 with
    | closes =>
      have hpos := hcloses hkind
      simp only [hkind, reduceCtorEq, decide_false, decide_true,
        Bool.false_eq_true, if_true, if_false] at hcount ⊢
      omega
    | _ =>
      simp only [hkind, reduceCtorEq, decide_false, decide_true,
        Bool.false_eq_true, if_true, if_false] at hcount ⊢
      omega

/-! ## One call -/

/-- The look-up with which `unlink` or `exec` starts has found nothing. -/
def Unresolved : Syscall → History → Prop
  | .unlink path, trace => ∃ tail found, trace = ⟨.beginOp, ()⟩ :: tail ∧
        Returns (nameiParent path) tail found ∧ found.1 = none
  | .exec path argc, trace => argc < maxArg ∧ ∃ tail found, trace = ⟨.beginOp, ()⟩ :: tail ∧
        Returns (namei path) tail found ∧ found = none
  | _, _ => False

section Call

variable {trace : History}

theorem depthOf_of_obeys {Value : Type} {program : Call Value} {value : Value} {first last : ℕ}
    (hobeys : Obeys (rule false) program first fun _ now => now = last)
    (hreturns : Returns program trace value) (hoffered : (rule false).Offered first trace) :
    (rule false).situation first trace = last :=
  (hobeys.walk hreturns hoffered).2

/-- A call that begins an operation, looks something up and gives up if nothing
was found leaves the operation open exactly then. -/
theorem depthOf_lookup {Found : Type} {lookup : Call Found}
    {next : Found → Call SysResult} {missing : Found → Prop}
    {result : SysResult} (hlookup : Keeps false 1 lookup)
    (hmissing : ∀ found, missing found → ∃ value, next found = pure value)
    (hfound : ∀ found, ¬missing found → Closes false 0 (next found))
    (hreturns : Returns (act .beginOp >>= fun _ => lookup >>= next) trace
      result) (hoffered : (rule false).Offered 0 trace) :
    depthOf trace = 0 ↔ ¬∃ tail found, trace = ⟨.beginOp, ()⟩ :: tail ∧
      Returns lookup tail found ∧ missing found := by
  obtain ⟨⟨⟩, rest, rfl, hrest⟩ := returns_perform.mp hreturns
  change Returns (lookup >>= next) rest result at hrest
  obtain ⟨found, left, right, rfl, hleft, hright⟩ := returns_bind.mp hrest
  obtain ⟨-, hofferedRest⟩ := hoffered
  obtain ⟨hofferedLeft, hofferedRight⟩ := Rule.offered_append.mp hofferedRest
  have hone : (rule false).situation 1 left = 1 := depthOf_of_obeys hlookup hleft hofferedLeft
  have hdepth : depthOf (⟨.beginOp, ()⟩ :: (left ++ right)) = (rule false).situation 1 right := by
    change (rule false).situation 1 (left ++ right) = _
    rw [Rule.situation_append, hone]
  rw [hdepth]
  by_cases hnone : missing found
  · obtain ⟨value, hnext⟩ := hmissing found hnone
    rw [hnext] at hright
    obtain ⟨rfl, -⟩ := returns_done.mp hright
    refine iff_of_false Nat.one_ne_zero (not_not.mpr ?_)
    exact ⟨left, found, by rw [List.append_nil], hleft, hnone⟩
  · have hzero : (rule false).situation 1 right = 0 := by
      refine depthOf_of_obeys (hfound found hnone) hright ?_
      rwa [← hone]
    refine iff_of_true hzero ?_
    rintro ⟨tail, other, htail, hother, hmissingOther⟩
    obtain rfl := (List.cons.inj htail).2
    obtain ⟨-, rfl⟩ := hleft.unique hother
    exact hnone hmissingOther

theorem depthOf_iff {call : Syscall} {result : SysResult}
    (hreturns : Returns call.program trace result) (hoffered : (rule false).Offered 0 trace) :
    depthOf trace = 0 ↔ ¬Unresolved call trace := by
  have hkeeps : Keeps false 0 call.program → ¬Unresolved call trace →
      (depthOf trace = 0 ↔ ¬Unresolved call trace) := fun hkeeps hresolved =>
    iff_of_true (depthOf_of_obeys hkeeps hreturns hoffered) hresolved
  cases call with
  | dup fd => exact hkeeps (keeps_sysDup fd) not_false
  | read fd len => exact hkeeps (keeps_sysRead fd len) not_false
  | write fd data => exact hkeeps (keeps_sysWrite fd data) not_false
  | pipe => exact hkeeps keeps_sysPipe not_false
  | «open» path openMode => exact hkeeps (keeps_sysOpen path openMode) not_false
  | mknod path major minor => exact hkeeps (keeps_sysMknod path major minor) not_false
  | close fd => exact hkeeps (keeps_sysClose fd) not_false
  | fstat fd => exact hkeeps (keeps_sysFstat fd) not_false
  | chdir path => exact hkeeps (keeps_sysChdir path) not_false
  | mkdir path => exact hkeeps (keeps_sysMkdir path) not_false
  | link oldPath newPath => exact hkeeps (keeps_sysLink oldPath newPath) not_false
  | exit => exact hkeeps keeps_sysExit not_false
  | unlink path =>
    refine depthOf_lookup (keeps_inner (inner_namex path true)) ?_ ?_ hreturns hoffered
    · rintro ⟨_ | parent, name⟩ hnone
      · exact ⟨_, rfl⟩
      · cases hnone
    · rintro ⟨_ | parent, name⟩ hsome
      · exact absurd rfl hsome
      · exact closes_unlinkIn parent name
  | exec path argc =>
    by_cases hargc : maxArg ≤ argc
    · refine hkeeps ?_ fun hunresolved => absurd hunresolved.1 (by omega)
      change Keeps false 0 (sysExec path argc)
      rw [sysExec, if_pos hargc]
      exact keeps_pure _
    · change Returns (sysExec path argc) trace result at hreturns
      rw [sysExec, if_neg hargc] at hreturns
      rw [Unresolved, and_iff_right (Nat.lt_of_not_le hargc)]
      refine depthOf_lookup (keeps_inner (inner_namei path)) ?_ ?_ hreturns hoffered
      · rintro (_ | inode) hnone
        · exact ⟨_, rfl⟩
        · cases hnone
      · rintro (_ | inode) hsome
        · exact absurd rfl hsome
        · exact closes_execInode inode

/-- `begin_op` and `end_op` are called equally often exactly when the look-up
succeeds. -/
theorem begins_eq_ends_iff {call : Syscall} {result : SysResult}
    (hreturns : Returns call.program trace result) (hoffered : (rule false).Offered 0 trace) :
    begins trace = ends trace ↔ ¬Unresolved call trace := by
  have hpermitted := ((obeys_program false call).walk hreturns hoffered).1
  have hcount := begins_eq_add_ends hpermitted
  rw [← depthOf_iff hreturns hoffered, depthOf]
  omega

end Call

/-! ## Runs -/

/-- The operations that the call returning with a step has begun and not
ended. -/
def leftOpen (entry : Machine × Action) : ℕ :=
  match entry.1.returning entry.2 with
  | some (_, trace) => begins trace - ends trace
  | none => 0

/-- The history of a call that returns. -/
theorem returns_of_returning {strict : Bool} {sys : Machine} {action : Action}
    {call : Syscall} {trace : History} (hconsistent : ∀ proc, (sys.threads proc).Consistent strict)
    (hreturning : sys.returning action = some (call, trace)) :
    ∃ result, Returns call.program trace result ∧ (rule strict).Offered 0 trace := by
  unfold Machine.returning at hreturning
  split at hreturning
  · next proc answer =>
      split at hreturning
      · next other history result hthread =>
          cases hreturning
          have hcaller := hconsistent proc
          rw [hthread] at hcaller
          exact ⟨result, hcaller⟩
      · cases hreturning
  · cases hreturning

theorem leak_eq_leftOpen {sys : Machine} {action : Action}
    (hconsistent : ∀ proc, (sys.threads proc).Consistent false) :
    sys.leak action = leftOpen (sys, action) := by
  unfold Machine.leak leftOpen
  cases hreturning : sys.returning action with
  | none => rfl
  | some ended =>
    obtain ⟨call, trace⟩ := ended
    obtain ⟨result, hreturns, hoffered⟩ :=
      returns_of_returning hconsistent hreturning
    have hpermitted := ((obeys_program false call).walk hreturns hoffered).1
    have hcount := begins_eq_add_ends hpermitted
    change depthOf trace = begins trace - ends trace
    change 0 + begins trace = depthOf trace + ends trace at hcount
    omega

theorem halted_of_run {first last : Machine} {record : List (Machine × Action)}
    (hrun : Run Machine.step first record last) (hhalted : last.halted = none) :
    first.halted = none := by
  cases hrun with
  | done => exact hhalted
  | step hnext _ => exact (step_moves hnext).1

/-- `Log.outstanding` counts the operations that processes are inside of and
those that returned calls have left open. -/
theorem run_outstanding {first last : Machine} {record : List (Machine × Action)}
    (hrun : Run Machine.step first record last)
    (hconsistent : ∀ proc, (first.threads proc).Consistent false) (hhalted : last.halted = none) :
    last.kernel.outstanding + first.inside =
      first.kernel.outstanding + last.inside + (record.map leftOpen).sum := by
  induction hrun with
  | done => rw [List.map_nil, List.sum_nil, Nat.add_zero]
  | step hstep hrest ih =>
    have hnext := step_consistent hconsistent nofun hstep
    have hcount := step_outstanding hconsistent hstep (halted_of_run hrest hhalted)
    have htail := ih hnext hhalted
    rw [leak_eq_leftOpen hconsistent] at hcount
    rw [List.map_cons, List.sum_cons]
    omega

/-- In every run, a call that returns has ended the operations it has begun
unless it is an `unlink` or `exec` whose look-up found nothing.  The count of
the log is what it was, up to the operations that processes are still inside
of and those that were left open. -/
theorem run_balanced {first last : Machine} {record : List (Machine × Action)}
    (hrun : Run Machine.step first record last) (hrest : AtRest first) :
    (∀ entry ∈ record, ∀ call trace, entry.1.returning entry.2 = some (call, trace) →
        (begins trace = ends trace ↔ ¬Unresolved call trace)) ∧
      (last.halted = none → last.kernel.outstanding = first.kernel.outstanding + last.inside +
          (record.map leftOpen).sum) := by
  refine ⟨?_, fun hhalted => ?_⟩
  · have hstep : ∀ (sys : Machine) action (next : Machine),
        (∀ proc, (sys.threads proc).Consistent false) → sys.step action = some next →
        ∀ proc, (next.threads proc).Consistent false :=
      fun _ _ _ hinv hstep => step_consistent hinv nofun hstep
    have hconsistent := hrun.always hstep (hrest.consistent false)
    intro entry hentry call trace hreturning
    obtain ⟨result, hreturns, hoffered⟩ :=
      returns_of_returning (hconsistent.2 entry hentry) hreturning
    exact begins_eq_ends_iff hreturns hoffered
  · have hcount := run_outstanding hrun (hrest.consistent false) hhalted
    rw [hrest.inside_eq, Nat.add_zero] at hcount
    exact hcount

/-- `chdir("/")` runs to its end. -/
theorem run_balanced_chdir : ∃ record last, Run Machine.step bootMachine record last ∧
      record.map Prod.snd = soloCall (.chdir [47, 0]) 10 ∧ (∀ entry ∈ record, ∀ call trace,
        entry.1.returning entry.2 = some (call, trace) →
          (begins trace = ends trace ↔ ¬Unresolved call trace)) ∧
      (last.halted = none → last.kernel.outstanding = bootMachine.kernel.outstanding + last.inside +
          (record.map leftOpen).sum) := by
  have hsome : ((soloCall (.chdir [47, 0]) 10).foldlM Machine.step bootMachine).isSome = true := by
    decide +kernel
  obtain ⟨last, hfold⟩ := Option.isSome_iff_exists.mp hsome
  obtain ⟨record, hrun, hactions⟩ := Run.of_foldlM hfold
  exact ⟨record, last, hrun, hactions, run_balanced hrun atRest_bootMachine⟩

/-- `unlink("/")` returns with its operation still open. -/
theorem exists_run_unbalanced : ¬∀ (first last : Machine) (record : List (Machine × Action)),
    Run Machine.step first record last → AtRest first → ∀ entry ∈ record, ∀ call trace,
        entry.1.returning entry.2 = some (call, trace) → begins trace = ends trace := by
  intro hbalanced
  have heval : ((soloCall (.unlink [47, 0]) 4).foldlM Machine.step bootMachine).map (fun sys =>
        (sys.kernel.outstanding, sys.inside, sys.halted)) = some (1, 0, none) := by decide +kernel
  obtain ⟨last, hfold, hlast⟩ := Option.map_eq_some_iff.mp heval
  obtain ⟨record, hrun, -⟩ := Run.of_foldlM hfold
  obtain ⟨houtstanding, hinside, hhalted⟩ : last.kernel.outstanding = 1 ∧
      last.inside = 0 ∧ last.halted = none := by simpa only [Prod.mk.injEq] using hlast
  have hcount := run_outstanding hrun (atRest_bootMachine.consistent false) hhalted
  have hzero : (record.map leftOpen).sum = 0 := by
    refine List.sum_eq_zero fun count hcount => ?_
    obtain ⟨entry, hentry, rfl⟩ := List.mem_map.mp hcount
    unfold leftOpen
    split
    · next call trace hreturning =>
        rw [hbalanced _ _ _ hrun atRest_bootMachine entry hentry call trace
          hreturning, Nat.sub_self]
    · rfl
  rw [houtstanding, hinside, hzero, atRest_bootMachine.inside_eq] at hcount
  exact absurd hcount (by decide)

end RxOs.Balance
