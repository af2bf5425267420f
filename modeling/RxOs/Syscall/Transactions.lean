import RxOs.Syscall.File
import RxOs.Syscall.InodeCode

/-!
# System calls and their transactions

Two rules for the operations of a system call, both in terms of its depth, the
number of operations it has begun and not ended.  The plain rule only asks that
`end_op` closes something that is open.  The strict one also asks that nothing
is logged at depth zero; it expects that a handle which is put at depth zero is
not the last one on an inode without links.
-/

namespace RxOs.Transactions

open Interaction Params Dinode Inode Kernel Operations Directory File InodeCode

/-- What an operation means for the transactions of a call. -/
inductive Kind
  | opens
  | closes
  | logs
  | plain
  | foreign
  deriving DecidableEq

/-- The kind of an operation; those of kind `logs` pass blocks to `Log::write`
whatever the state is.  The panic of `Log::write` itself is foreign to the code
of system calls. -/
def Op.kind : Op → Kind
  | .beginOp => .opens
  | .endOp => .closes
  | .update _ | .write _ _ _ | .truncate _ | .allocInode _ | .putTruncate _ => .logs
  | .panic .logOutOfRecording => .foreign
  | _ => .plain

theorem eq_beginOp_of_kind {op : Op} (hkind : Op.kind op = .opens) : op = .beginOp := by
  unfold Op.kind at hkind
  split at hkind
  all_goals first | rfl | cases hkind

theorem eq_endOp_of_kind {op : Op} (hkind : Op.kind op = .closes) : op = .endOp := by
  unfold Op.kind at hkind
  split at hkind
  all_goals first | rfl | cases hkind

def permits (strict : Bool) (op : Op) (depth : ℕ) : Prop :=
  Op.kind op ≠ .foreign ∧ (Op.kind op = .closes → 0 < depth) ∧
    (strict → Op.kind op = .logs → 0 < depth)

def offers (strict : Bool) : (op : Op) → ℕ → op.Reply → Prop
  | .putCheck _, depth, reply => strict → depth = 0 → reply = false
  | .write _ _ _, _, reply => ∃ total, reply = Except.ok total
  | _, _, _ => True

def depthAfter (op : Op) (depth : ℕ) : ℕ :=
  match Op.kind op with
  | .opens => depth + 1
  | .closes => depth - 1
  | _ => depth

def rule (strict : Bool) : Rule Op Op.Reply ℕ where
  permits := permits strict
  offers := offers strict
  after := fun op depth _ => depthAfter op depth

variable {Value Result : Type} {strict : Bool} {depth : ℕ}

/-! ## Parts that keep the depth, or end an operation -/

/-- The program obeys the rule and returns at the depth where it started. -/
def Keeps (strict : Bool) (depth : ℕ) (program : Call Value) : Prop :=
  Obeys (rule strict) program depth fun _ now => now = depth

/-- The program starts inside an operation and returns after ending it. -/
def Closes (strict : Bool) (depth : ℕ) (program : Call Value) : Prop :=
  Obeys (rule strict) program (depth + 1) fun _ now => now = depth

/-- Both at once: the program obeys the rule and goes from one depth to
another. -/
def Leads (strict : Bool) (before after : ℕ) (program : Call Value) : Prop :=
  Obeys (rule strict) program before fun _ now => now = after

section Leads

variable {before after : ℕ} {op : Op} {cause : Panic} {inode : Handle}
variable {program left right : Call Value} {next : Value → Call Result}

theorem keeps_pure (value : Value) :
    Keeps strict depth (pure value : Call Value) := rfl

theorem Leads.bind {middle : ℕ} (hfirst : Leads strict before middle program)
    (hnext : ∀ value, Leads strict middle after (next value)) :
    Leads strict before after (program >>= next) := by
  refine Obeys.bind hfirst ?_
  rintro value now rfl
  exact hnext value

theorem Leads.keep (hfirst : Keeps strict before program)
    (hnext : ∀ value, Leads strict before after (next value)) :
    Leads strict before after (program >>= next) :=
  Leads.bind hfirst hnext

theorem Leads.ite {condition : Prop} [Decidable condition] (hleft : Leads strict before after left)
    (hright : Leads strict before after right) :
    Leads strict before after (if condition then left else right) := by
  split
  · exact hleft
  · exact hright

theorem keeps_plain (hkind : Op.kind op = .plain) : Keeps strict depth (act op) := by
  refine ⟨⟨?_, ?_, ?_⟩, ?_⟩
  · rw [hkind]
    exact nofun
  · rw [hkind]
    exact nofun
  · rw [hkind]
    exact nofun
  · intro reply _
    change depthAfter op depth = depth
    rw [depthAfter, hkind]

theorem Leads.act {next : op.Reply → Call Result} (hkind : Op.kind op = .plain)
    (hnext : ∀ reply, Leads strict before after (next reply)) :
    Leads strict before after (Operations.act op >>= next) :=
  .keep (keeps_plain hkind) hnext

theorem keeps_logs (hkind : Op.kind op = .logs) (hdepth : 0 < depth) :
    Keeps strict depth (act op) := by
  refine ⟨⟨?_, fun _ => hdepth, fun _ _ => hdepth⟩, ?_⟩
  · rw [hkind]
    exact nofun
  · intro reply _
    change depthAfter op depth = depth
    rw [depthAfter, hkind]

theorem kind_panic (hcause : cause ≠ .logOutOfRecording) : Op.kind (.panic cause) = .plain := by
  unfold Op.kind
  split
  all_goals first | rfl | simp_all

theorem leads_abort (hcause : cause ≠ .logOutOfRecording) :
    Leads strict before after (abort cause : Call Value) :=
  ⟨(keeps_plain (kind_panic hcause)).1, nofun⟩

/-- A handle may be put at any depth. -/
theorem keeps_put (inode : Handle) : Keeps strict depth (put inode) := by
  rw [put, Keeps, obeys_bind]
  refine ⟨⟨nofun, nofun, nofun⟩, ?_⟩
  intro unlinked hoffers
  change Bool at unlinked
  cases unlinked with
  | false => exact rfl
  | true =>
    refine Leads.bind ⟨⟨nofun, nofun, ?_⟩, fun _ _ => rfl⟩ fun _ => keeps_plain rfl
    intro hstrict _
    by_contra hzero
    cases hoffers hstrict (Nat.eq_zero_of_not_pos hzero)

theorem Leads.put {next : Unit → Call Result} (hnext : Leads strict before after (next ())) :
    Leads strict before after (Operations.put inode >>= next) :=
  .keep (keeps_put inode) fun _ => hnext

theorem keeps_putAll (inode : Option Handle) : Keeps strict depth (putAll inode) := by
  cases inode with
  | none => exact keeps_pure ()
  | some inode => exact keeps_put inode

theorem Closes.begin {next : Unit → Call Value} (hnext : Closes strict depth (next ())) :
    Keeps strict depth (act .beginOp >>= next) := by
  refine obeys_bind.mpr ⟨⟨nofun, nofun, nofun⟩, ?_⟩
  intro _ _
  exact hnext

theorem closes_endOp : Closes strict depth endOp := by
  refine obeys_bind.mpr ⟨⟨nofun, fun _ => Nat.succ_pos depth, nofun⟩, ?_⟩
  intro last _
  change Leads strict depth depth (if last then _ else _)
  exact Leads.ite (keeps_plain rfl) (keeps_pure ())

theorem Leads.endOp {next : Unit → Call Result} (hnext : Leads strict depth after (next ())) :
    Leads strict (depth + 1) after (Operations.endOp >>= next) :=
  .bind closes_endOp fun _ => hnext

end Leads

/-- Code that works on inodes may be run inside every operation. -/
theorem keeps_inner {program : Call Value} (hinner : Inner program) :
    Keeps strict (depth + 1) program := by
  refine hinner.obeys (fun op honInodes => ?_) fun op reply honInodes => ?_
  · refine ⟨?_, fun _ => Nat.succ_pos depth, fun _ _ => Nat.succ_pos depth⟩
    intro hforeign
    cases op <;> simp_all [Op.onInodes, Op.kind]
  · change depthAfter op (depth + 1) = depth + 1
    cases op <;> simp_all [Op.onInodes, depthAfter, Op.kind]

/-! ## Reading, writing and descriptors -/

theorem keeps_outside : Keeps strict depth outside := by
  refine Leads.act rfl fun answer => ?_
  cases answer with
  | none => exact keeps_pure _
  | some value => exact keeps_pure _

theorem keeps_copyFromKernel : Keeps strict depth copyFromKernel := by
  refine Leads.act rfl fun copied => ?_
  cases copied with
  | none => exact leads_abort nofun
  | some _ => exact keeps_pure _

theorem keeps_device (major : Int16) : Keeps strict depth (device major) :=
  Leads.ite (keeps_pure _) (.ite (leads_abort nofun) keeps_outside)

theorem keeps_sysRead (fd len : ℕ) : Keeps strict depth (sysRead fd len) := by
  refine Leads.act rfl fun file => .ite (leads_abort nofun) ?_
  split
  · exact leads_abort nofun
  · exact keeps_outside
  · exact keeps_device _
  · exact leads_abort nofun
  · refine Leads.act rfl fun _ => .act rfl fun file => .act rfl fun outcome => ?_
    cases outcome with
    | error _ => exact Leads.act rfl fun _ => keeps_pure _
    | ok bytes => exact Leads.act rfl fun _ => .act rfl fun _ => keeps_pure _

/-- Each chunk is an operation of its own; `InodeData::write` does not fail. -/
theorem keeps_writeChunks (fd : ℕ) (inode : Handle) (data : List UInt8) (fuel count : ℕ) :
    Keeps strict depth (writeChunks fd inode data fuel count) := by
  induction fuel generalizing count with
  | zero => exact keeps_pure _
  | succ fuel ih =>
    rw [writeChunks]
    refine Leads.ite (keeps_pure _) (Closes.begin ?_)
    refine Leads.act rfl fun _ => .act rfl fun file => ?_
    refine obeys_bind.mpr ⟨⟨nofun, nofun, fun _ _ => Nat.succ_pos depth⟩, ?_⟩
    rintro outcome ⟨total, rfl⟩
    exact Leads.act rfl fun _ => .endOp (.act rfl fun _ => ih _)

theorem keeps_sysWrite (fd : ℕ) (data : List UInt8) : Keeps strict depth (sysWrite fd data) := by
  refine Leads.act rfl fun file => .ite (leads_abort nofun) ?_
  split
  · exact leads_abort nofun
  · exact keeps_outside
  · exact keeps_device _
  · exact Leads.ite (keeps_pure _) (Closes.begin (leads_abort nofun))
  · exact keeps_writeChunks _ _ _ _ _

theorem keeps_sysDup (fd : ℕ) : Keeps strict depth (sysDup fd) :=
  Leads.act rfl fun _ => keeps_pure _

theorem keeps_sysClose (fd : ℕ) : Keeps strict depth (sysClose fd) :=
  Leads.act rfl fun inode => .keep (keeps_putAll inode) fun _ => keeps_pure _

theorem keeps_sysPipe : Keeps strict depth sysPipe := by
  refine Leads.act rfl fun rf => ?_
  cases rf with
  | none => exact keeps_pure _
  | some _ =>
    refine Leads.act rfl fun wf => ?_
    cases wf with
    | none => exact keeps_pure _
    | some _ => exact keeps_copyFromKernel

theorem keeps_sysFstat (fd : ℕ) : Keeps strict depth (sysFstat fd) := by
  refine Leads.act rfl fun file => ?_
  split
  · exact keeps_pure _
  · exact keeps_pure _
  · exact leads_abort nofun
  · exact Leads.act rfl fun _ => .act rfl fun _ => keeps_copyFromKernel

/-! ## Calls with a path -/

/-- Without an inode `openInode` has ended the operation. -/
theorem obeys_openInode (path : List UInt8) (openMode : ℕ) :
    Obeys (rule strict) (openInode path openMode) (depth + 1)
      fun found now => now = if found.isSome then depth + 1 else depth := by
  have hdepth := Nat.succ_pos depth
  have hended : Obeys (rule strict) (endOp >>= fun _ => pure none)
      (depth + 1) fun (found : Option Handle) now =>
        now = if found.isSome then depth + 1 else depth := by
    refine Obeys.bind closes_endOp ?_
    rintro _ now rfl
    exact rfl
  rw [openInode]
  split
  · refine Obeys.bind (keeps_inner (inner_create path _ _ _)) ?_
    rintro outcome now rfl
    cases outcome with
    | ok inode => exact rfl
    | error _ => exact hended
  · refine Obeys.bind (keeps_inner (inner_namei path)) ?_
    rintro found now rfl
    cases found with
    | none => exact hended
    | some inode =>
      refine Obeys.bind (keeps_plain rfl) ?_
      rintro _ now rfl
      refine Obeys.bind (keeps_plain rfl) ?_
      rintro idata now rfl
      refine Obeys.bind (keeps_plain rfl) ?_
      rintro _ now rfl
      split
      · refine Obeys.bind closes_endOp ?_
        rintro _ now rfl
        refine Obeys.bind (keeps_put inode) ?_
        rintro _ now rfl
        exact rfl
      · exact rfl

theorem keeps_sysOpen (path : List UInt8) (openMode : ℕ) :
    Keeps strict depth (sysOpen path openMode) := by
  refine Closes.begin (Obeys.bind (obeys_openInode path openMode) ?_)
  rintro found now rfl
  cases found with
  | none => exact keeps_pure _
  | some inode =>
    refine Leads.act rfl fun _ => .act rfl fun idata => ?_
    refine Leads.bind (.ite (keeps_logs rfl (Nat.succ_pos depth)) (keeps_pure _)) fun _ => ?_
    refine Leads.act rfl fun _ => .endOp (.act rfl fun fd => ?_)
    cases fd with
    | some fd => exact keeps_pure _
    | none => exact Leads.put (keeps_pure _)

theorem keeps_sysMknod (path : List UInt8) (major minor : Int16) :
    Keeps strict depth (sysMknod path major minor) := by
  refine Closes.begin (Leads.keep (keeps_inner (inner_create path _ _ _)) fun outcome => ?_)
  cases outcome with
  | ok inode => exact Leads.endOp (.put (keeps_pure _))
  | error _ => exact Leads.endOp (keeps_pure _)

theorem keeps_sysMkdir (path : List UInt8) : Keeps strict depth (sysMkdir path) := by
  refine Closes.begin (Leads.keep (keeps_inner (inner_create path _ _ _)) fun outcome => ?_)
  cases outcome with
  | ok inode => exact Leads.put (.endOp (keeps_pure _))
  | error _ => exact Leads.endOp (keeps_pure _)

theorem keeps_sysChdir (path : List UInt8) : Keeps strict depth (sysChdir path) := by
  refine Closes.begin (Leads.keep (keeps_inner (inner_namei path)) fun found => ?_)
  cases found with
  | none => exact Leads.endOp (keeps_pure _)
  | some inode =>
    refine Leads.act rfl fun _ => .act rfl fun idata => ?_
    refine Leads.act rfl fun _ => .ite (.act rfl fun old => ?_) ?_
    · exact Leads.keep (keeps_putAll old) fun _ => .endOp (keeps_pure _)
    · exact Leads.put (.endOp (keeps_pure _))

theorem keeps_addNlink (inode : Handle) (step : Int16) : Keeps strict depth (addNlink inode step) :=
  Leads.act rfl fun _ => keeps_plain rfl

theorem closes_unlinkInode (parent inode : Handle) :
    Closes strict depth (unlinkInode parent inode) := by
  have hlogs {op : Op} (hkind : Op.kind op = .logs) : Keeps strict (depth + 1) (act op) :=
    keeps_logs hkind (Nat.succ_pos depth)
  refine Leads.act rfl fun _ => .act rfl fun idata => ?_
  refine Leads.bind (.ite ?_ (keeps_pure _)) fun occupied => .ite ?_ ?_
  · exact Leads.keep (keeps_inner (inner_isDirEmpty inode)) fun _ => keeps_pure _
  · exact Leads.act rfl fun _ => .act rfl fun _ => .endOp (.put (.put (keeps_pure _)))
  · refine Leads.bind (.ite ?_ (keeps_pure _)) fun _ => .act rfl fun _ => ?_
    · exact Leads.keep (keeps_addNlink parent _) fun _ => hlogs rfl
    refine Leads.keep (keeps_addNlink inode _) fun _ => ?_
    exact Leads.keep (hlogs rfl) fun _ => .act rfl fun _ => .endOp (.put (.put (keeps_pure _)))

theorem closes_unlinkIn (parent : Handle) (name : List UInt8) :
    Closes strict depth (unlinkIn parent name) := by
  refine Leads.act rfl fun _ => .ite ?_ ?_
  · exact Leads.act rfl fun _ => .endOp (.put (keeps_pure _))
  · refine Leads.keep (keeps_inner (inner_dirLookup parent name)) fun entry => ?_
    cases entry with
    | none => exact Leads.act rfl fun _ => .endOp (.put (keeps_pure _))
    | some inode => exact closes_unlinkInode parent inode

theorem closes_linkIn (inode parent : Handle) (name : List UInt8) :
    Closes strict depth (linkIn inode parent name) := by
  have hdepth := Nat.succ_pos depth
  refine Leads.act rfl fun _ => .act rfl fun idata => ?_
  refine Leads.bind (.ite (keeps_pure _) ?_) fun refused => .ite ?_ ?_
  · exact Leads.keep (keeps_inner (inner_dirLink parent _ _)) fun _ => keeps_pure _
  · refine Leads.act rfl fun _ => .keep (keeps_addNlink inode _) fun _ => ?_
    exact Leads.act rfl fun _ => .endOp (.put (.put (keeps_pure _)))
  · refine Leads.keep (keeps_logs rfl hdepth) fun _ => .act rfl fun _ => ?_
    exact Leads.endOp (.act rfl fun _ => .put (.put (keeps_pure _)))

theorem keeps_sysLink (oldPath newPath : List UInt8) :
    Keeps strict depth (sysLink oldPath newPath) := by
  refine Closes.begin (Leads.keep (keeps_inner (inner_namei oldPath)) fun found => ?_)
  cases found with
  | none => exact Leads.endOp (keeps_pure _)
  | some inode =>
    refine Leads.act rfl fun _ => .act rfl fun idata => .ite ?_ ?_
    · exact Leads.act rfl fun _ => .endOp (.put (keeps_pure _))
    · refine Leads.keep (keeps_addNlink inode _) fun _ => ?_
      refine Leads.keep (keeps_inner (inner_namex newPath true)) fun found => ?_
      obtain ⟨_ | parent, name⟩ := found
      · refine Leads.keep (keeps_addNlink inode _) fun _ => ?_
        exact Leads.act rfl fun _ => .endOp (.put (keeps_pure _))
      · exact closes_linkIn inode parent name

/-! ## Executing a file and exit -/

theorem closes_execFail (inode : Handle) : Closes strict depth (execFail inode) :=
  Leads.act rfl fun _ => .endOp (.put (keeps_pure _))

theorem keeps_loadSeg (inode : Handle) (offset size fuel copySize : ℕ) :
    Keeps strict depth (loadSeg inode offset size fuel copySize) := by
  induction fuel generalizing copySize with
  | zero => exact keeps_pure _
  | succ fuel ih =>
    rw [loadSeg]
    refine Leads.ite (keeps_pure _) (.act rfl fun pa => ?_)
    cases pa with
    | none => exact leads_abort nofun
    | some _ =>
      refine Leads.act rfl fun outcome => ?_
      cases outcome with
      | error _ => exact keeps_pure _
      | ok _ => exact ih _

theorem keeps_loadSegments (inode : Handle) (phnum off : ℕ) :
    Keeps strict depth (loadSegments inode phnum off) := by
  induction phnum generalizing off with
  | zero => exact keeps_pure _
  | succ phnum ih =>
    refine Leads.act rfl fun outcome => ?_
    cases outcome with
    | error _ => exact keeps_pure _
    | ok ph =>
      refine Leads.ite (ih _) (.ite (keeps_pure _) (.ite (keeps_pure _) ?_))
      refine Leads.act rfl fun allocated => ?_
      cases allocated with
      | none => exact keeps_pure _
      | some _ =>
        refine Leads.ite (keeps_pure _) (.keep (keeps_loadSeg inode _ _ _ _) fun loaded => ?_)
        exact Leads.ite (ih _) (keeps_pure _)

theorem closes_execInode (inode : Handle) : Closes strict depth (execInode inode) := by
  refine Leads.act rfl fun _ => .act rfl fun outcome => ?_
  cases outcome with
  | error _ => exact closes_execFail inode
  | ok elf =>
    refine Leads.ite (closes_execFail inode) (.act rfl fun pagetable => ?_)
    cases pagetable with
    | none => exact leads_abort nofun
    | some _ =>
      refine Leads.keep (keeps_loadSegments inode _ _) fun loaded => .ite ?_ (closes_execFail inode)
      refine Leads.act rfl fun _ => .endOp ?_
      exact Leads.keep keeps_outside fun _ => .put (keeps_pure _)

theorem keeps_closeAll (fds : List ℕ) : Keeps strict depth (closeAll fds) := by
  induction fds with
  | nil => exact keeps_pure _
  | cons fd fds ih => exact Leads.act rfl fun inode => .keep (keeps_putAll inode) fun _ => ih

theorem keeps_sysExit : Keeps strict depth sysExit := by
  refine Leads.keep (keeps_closeAll _) fun _ => Closes.begin ?_
  refine Leads.act rfl fun cwd => ?_
  exact Leads.keep (keeps_putAll cwd) fun _ => .endOp (keeps_pure _)

end RxOs.Transactions
