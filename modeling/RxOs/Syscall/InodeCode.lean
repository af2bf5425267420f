import RxOs.Syscall.Directory

/-!
# Code that works on inodes only

Directories, the path walk and `create` lock and put inodes and read and write
them.  They neither begin nor end an operation of the log, nor do they touch
the descriptors of the process.
-/

namespace RxOs.InodeCode

open Interaction Params Dinode Inode Kernel Operations Directory

/-- The operations on inodes.  The panic of `Log::write` is not one of those
that the code of system calls raises itself. -/
def Op.onInodes : Op → Bool
  | .cacheGet _ | .dupCwd | .lock _ | .unlock _ | .view _ | .assign _ _
  | .update _ | .read _ _ _ | .write _ _ _ | .truncate _ | .allocInode _
  | .putCheck _ | .putTruncate _ | .putFinish _ => true
  | .panic cause => cause ≠ .logOutOfRecording
  | _ => false

/-- The program performs operations on inodes only. -/
def Inner {Value : Type} (program : Call Value) : Prop :=
  Only (fun op => Op.onInodes op = true) program

section Inner

variable {Value Result : Type} {op : Op} {cause : Panic} {inode : Handle}

theorem Inner.act {next : op.Reply → Call Result}
    (honInodes : Op.onInodes op = true) (hnext : ∀ reply, Inner (next reply)) :
    Inner (Operations.act op >>= next) :=
  Only.bind (only_call honInodes) hnext

theorem inner_abort (hcause : cause ≠ .logOutOfRecording) : Inner (abort cause : Call Value) :=
  ⟨decide_eq_true hcause, nofun⟩

theorem inner_put (inode : Handle) : Inner (put inode) := by
  refine Inner.act rfl fun unlinked => ?_
  exact Only.ite (Inner.act rfl fun _ => only_call rfl) trivial

theorem Inner.put {next : Unit → Call Result} (hnext : Inner (next ())) :
    Inner (Operations.put inode >>= next) :=
  Only.bind (inner_put inode) fun _ => hnext

end Inner

/-! ## Directories -/

theorem inner_readEntry (dir : Handle) (offset : ℕ) : Inner (readEntry dir offset) := by
  refine Inner.act rfl fun outcome => ?_
  cases outcome with
  | ok entry => trivial
  | error _ => exact inner_abort nofun

theorem inner_lookupIn (dir : Handle) (name : List UInt8) (offsets : List ℕ) :
    Inner (lookupIn dir name offsets) := by
  induction offsets with
  | nil => trivial
  | cons offset offsets ih =>
    refine Only.bind (inner_readEntry dir offset) fun entry => .ite ?_ ih
    exact Inner.act rfl fun _ => trivial

theorem inner_dirLookup (dir : Handle) (name : List UInt8) : Inner (dirLookup dir name) :=
  Inner.act rfl fun _ => .ite (inner_abort nofun) (inner_lookupIn dir name _)

theorem inner_linkOffset (dir : Handle) (offsets : List ℕ) (entryOffset : ℕ) :
    Inner (linkOffset dir offsets entryOffset) := by
  induction offsets generalizing entryOffset with
  | nil => trivial
  | cons offset offsets ih =>
    refine Only.bind (inner_readEntry dir offset) fun entry => ?_
    exact Only.ite trivial (ih _)

theorem inner_dirLink (dir : Handle) (name : List UInt8) (inum : UInt32) :
    Inner (dirLink dir name inum) := by
  refine Inner.act rfl fun idata => .ite (inner_abort nofun) ?_
  refine Only.bind (inner_linkOffset dir _ _) fun entryOffset => ?_
  exact Inner.act rfl fun _ => trivial

theorem inner_emptyFrom (dir : Handle) (offsets : List ℕ) : Inner (emptyFrom dir offsets) := by
  induction offsets with
  | nil => trivial
  | cons offset offsets ih =>
    refine Only.bind (inner_readEntry dir offset) fun entry => ?_
    exact Only.ite trivial ih

theorem inner_isDirEmpty (dir : Handle) : Inner (isDirEmpty dir) :=
  Inner.act rfl fun _ => inner_emptyFrom dir _

/-! ## Paths -/

theorem skipWhile_ne_error (path : List UInt8) (cur : ℕ) (condition : UInt8 → Bool) :
    skipWhile path cur condition ≠ .error .logOutOfRecording := by
  simp only [skipWhile]
  split <;> exact nofun

theorem skipPath_ne_error (path : List UInt8) (cur : ℕ) (name : List UInt8) :
    skipPath path cur name ≠ .error .logOutOfRecording := by
  have hbind : ∀ {Value Result : Type} {first : Except Panic Value}
      {rest : Value → Except Panic Result}, first ≠ .error .logOutOfRecording →
      (∀ value, rest value ≠ .error .logOutOfRecording) →
      (first >>= rest) ≠ .error .logOutOfRecording := by
    intro Value Result first rest hfirst hrest
    cases first with
    | error cause => exact fun heq => hfirst (congrArg _ (Except.error.inj heq))
    | ok value => exact hrest value
  refine hbind (skipWhile_ne_error _ _ _) fun start => ?_
  split
  · exact nofun
  refine hbind (skipWhile_ne_error _ _ _) fun stop => ?_
  split
  · exact nofun
  exact hbind (skipWhile_ne_error _ _ _) fun _ => nofun

theorem inner_namexLoop (path : List UInt8) (isParent : Bool) (fuel : ℕ)
    (inode : Handle) (cur : ℕ) (name : List UInt8) :
    Inner (namexLoop path isParent fuel inode cur name) := by
  induction fuel generalizing inode cur name with
  | zero => exact Inner.put trivial
  | succ fuel ih =>
    rw [namexLoop]
    split
    · next cause hskip =>
        refine inner_abort fun hcause => ?_
        exact skipPath_ne_error path cur name (hcause ▸ hskip)
    · exact Only.ite (Inner.put trivial) trivial
    · refine Inner.act rfl fun _ => .act rfl fun idata => .ite ?_ (.ite ?_ ?_)
      · exact Inner.act rfl fun _ => .put trivial
      · exact Inner.act rfl fun _ => trivial
      · refine Only.bind (inner_dirLookup inode _) fun found => ?_
        refine Inner.act rfl fun _ => .put ?_
        cases found with
        | none => trivial
        | some lastInode => exact ih lastInode _ _

theorem inner_namex (path : List UInt8) (isParent : Bool) : Inner (namex path isParent) :=
  Only.bind (.ite (only_call rfl) (only_call rfl)) fun inode =>
    inner_namexLoop path isParent _ inode _ _

theorem inner_namei (path : List UInt8) : Inner (namei path) :=
  Only.bind (inner_namex path false) fun _ => trivial

theorem inner_linkSelf (inode : Handle) : Inner (linkSelf inode) := by
  refine Inner.act rfl fun idata => .act rfl fun _ => ?_
  refine Inner.act rfl fun _ => ?_
  refine Only.bind (inner_dirLink inode _ _) fun outcome => ?_
  cases outcome with
  | error message => trivial
  | ok _ => exact inner_dirLink inode _ _

theorem inner_createNew (dirinode : Handle) (name : List UInt8)
    (itype : InodeType) (major minor : Int16) :
    Inner (createNew dirinode name itype major minor) := by
  refine Inner.act rfl fun inum => ?_
  refine Inner.act rfl fun inode => .act rfl fun _ => .act rfl fun idata => ?_
  refine Inner.act rfl fun _ => .act rfl fun _ => ?_
  refine Only.bind (.ite (inner_linkSelf inode) trivial) fun linked => ?_
  cases linked with
  | error message => exact Inner.act rfl fun _ => .put (.act rfl fun _ => .put trivial)
  | ok _ =>
    refine Only.bind (inner_dirLink dirinode _ _) fun outcome => ?_
    cases outcome with
    | error _ => exact inner_abort nofun
    | ok _ => exact Inner.act rfl fun _ => .act rfl fun _ => .put trivial

theorem inner_create (path : List UInt8) (itype : InodeType) (major minor : Int16) :
    Inner (create path itype major minor) := by
  refine Only.bind (inner_namex path true) fun found => ?_
  obtain ⟨_ | dirinode, name⟩ := found
  · exact inner_abort nofun
  refine Inner.act rfl fun _ => ?_
  refine Only.bind (inner_dirLookup dirinode name) fun entry => ?_
  cases entry with
  | none => exact inner_createNew dirinode name itype major minor
  | some inode =>
    refine Inner.act rfl fun _ => .act rfl fun _ => .act rfl fun idata => ?_
    refine Inner.act rfl fun _ => .ite ?_ ?_
    · exact Inner.put trivial
    · exact Inner.put (.put trivial)

end RxOs.InodeCode
