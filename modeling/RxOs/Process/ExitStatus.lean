import RxOs.Memory.KernelWrites
import RxOs.Process.WaitList

/-!
# Delivery of exit statuses

`exit` leaves the status in the process table.  `wait` looks for a zombie among
the children of the caller, copies the status out and frees the child; it copies
through the page table of the child, not through that of the caller.
-/

namespace RxOs.ExitStatus

open Function Exec Transition PageTable Frames UserCopy AddressSpace Holdings
open Sharing ProcessPages CopyOnWrite KernelWrites
open Kernel (Proc)
open Params (nproc)
open WaitList (ProcMeta)

/-- The process table with `wait_list`, and memory. -/
structure System extends WaitList.Table where
  memory : Memory

abbrev SysM := EStateM Panic System

def onMemory {Value : Type} (program : MemM Value) : SysM Value :=
  zoom System.memory (fun memory system => { system with memory := memory }) program

/-- The bytes of a `usize` in memory. -/
def statusBytes (xstate : ℕ) : List UInt8 :=
  (List.range 8).map fun index => UInt8.ofNat (xstate / 256 ^ index)

/-- The part of `ProcManager::exit` that concerns parent and child. -/
def exit (proc : Proc) (status : ℕ) (system : System) : System :=
  { system with toTable := system.toTable.exit proc status }

inductive Pass
  | reaped (pid : ℕ)
  | failed
  | asleep
  deriving DecidableEq

/-- What `wait` does with a zombie. -/
def reap (child : Proc) (addr : ℕ) : SysM Pass := do
  let system ← get
  let found ← onMemory (space child)
  let copied ←
    if addr ≠ 0 then
      onMemory (copyOut found.table addr (statusBytes (system.metas child).xstate))
    else pure (.ok ())
  match copied with
  | .error _ => return .failed
  | .ok () => do
    onMemory (freeProc child)
    modify fun system => { system with toTable := system.toTable.freeProc child }
    return .reaped (system.metas child).pid

/-- The loop over the process table in `ProcManager::wait`. -/
def scan (caller : Proc) (addr : ℕ) : List Proc → Bool → SysM Pass
  | [], haveKids => do
    let system ← get
    if !haveKids || (system.metas caller).killed then return .failed
    else return .asleep
  | proc :: procs, haveKids => do
    let system ← get
    if system.waitList proc = some caller then
      if (system.metas proc).state = .zombie then reap proc addr
      else scan caller addr procs true
    else scan caller addr procs haveKids

/-- One pass of `ProcManager::wait`; a process that falls asleep starts over. -/
def wait (caller : Proc) (addr : ℕ) : SysM Pass :=
  scan caller addr (List.finRange nproc) false

/-- The zombie that `wait` finds. -/
def zombieChild (system : System) (caller : Proc) : Option Proc :=
  (List.finRange nproc).find? fun proc => system.waitList proc = some caller ∧
      (system.metas proc).state = .zombie

/-! ## What `wait` does to memory -/

def quiet (proc : Proc) : Guarantee Memory Panic where
  rel := fun first last => last.bytes = first.bytes ∧
    ∀ other ≠ proc, last.spaces other = first.spaces other
  stops := fun _ _ => True
  refl := fun _ => ⟨rfl, fun _ _ => rfl⟩
  trans := fun hfirst hrest => ⟨hrest.1.trans hfirst.1, fun other hother =>
    (hrest.2 other hother).trans (hfirst.2 other hother)⟩
  stable := fun _ _ => trivial

section Quiet

variable {proc : Proc}

theorem quiet_unwrap {Value : Type} (value : Option Value) :
    Guarantees (quiet proc) (unwrap value) := by
  cases value with
  | none => exact guarantees_throw fun _ => trivial
  | some found => exact guarantees_pure found

theorem quiet_space (other : Proc) : Guarantees (quiet proc) (space other) :=
  Guarantees.bind guarantees_get fun _ => quiet_unwrap _

theorem quiet_setSpace (changed : Option Space) : Guarantees (quiet proc) (setSpace proc changed) :=
  guarantees_modify fun _ => ⟨rfl, fun _ hother => update_of_ne hother _ _⟩

theorem quiet_modifyTable (change : Table → Table) :
    Guarantees (quiet proc) (modifyTable proc change) :=
  Guarantees.bind (quiet_space proc) fun _ => quiet_setSpace _

theorem quiet_dealloc (frame : ℕ) : Guarantees (quiet proc) (dealloc frame) := by
  refine Guarantees.bind ?_ fun _ => guarantees_modify fun _ => ⟨rfl, fun _ _ => rfl⟩
  exact Guarantees.ite (guarantees_throw fun _ => trivial) (guarantees_pure _)

theorem quiet_unmapPage (va : ℕ) (free : Bool) :
    Guarantees (quiet proc) (unmapPage proc va free) := by
  refine Guarantees.bind (quiet_space proc) ?_
  intro found
  cases found.table.lookup va with
  | none => exact guarantees_throw fun _ => trivial
  | some place =>
    refine Guarantees.ite (Guarantees.ite ?_ (guarantees_pure _))
      (guarantees_throw fun _ => trivial)
    exact Guarantees.bind (quiet_dealloc _) fun _ => quiet_modifyTable _

theorem quiet_unmapPages (free : Bool) (pages va : ℕ) :
    Guarantees (quiet proc) (unmapPages proc free pages va) := by
  induction pages generalizing va with
  | zero => exact guarantees_pure _
  | succ pages ih => exact Guarantees.bind (quiet_unmapPage va free) fun _ => ih _

theorem quiet_uunmap (va pages : ℕ) (free : Bool) :
    Guarantees (quiet proc) (uunmap proc va pages free) :=
  Guarantees.ite (guarantees_throw fun _ => trivial) (quiet_unmapPages free pages va)

theorem quiet_dropTable (table : Table) : Guarantees (quiet proc) (dropTable table) := by
  refine guarantees_forM (fun i => ?_) entries
  refine Guarantees.ite ?_ (guarantees_pure _)
  refine Guarantees.bind (guarantees_forM (fun j => ?_) entries) fun _ => quiet_dealloc _
  refine Guarantees.ite ?_ (guarantees_pure _)
  exact Guarantees.ite (guarantees_throw fun _ => trivial) (quiet_dealloc _)

theorem quiet_freeProc : Guarantees (quiet proc) (freeProc proc) := by
  refine Guarantees.bind (quiet_space proc) fun found => ?_
  refine Guarantees.bind (quiet_unwrap _) fun frame => ?_
  refine Guarantees.bind (quiet_dealloc frame) fun _ => ?_
  refine Guarantees.bind (quiet_setSpace _) fun _ => ?_
  refine Guarantees.bind ?_ fun _ => Guarantees.bind (quiet_space proc)
    fun last => Guarantees.bind (quiet_dropTable _) fun _ =>
      Guarantees.bind (quiet_dealloc _) fun _ => quiet_setSpace _
  refine Guarantees.bind (quiet_uunmap _ _ _) fun _ => Guarantees.bind (quiet_uunmap _ _ _) fun _ =>
      Guarantees.bind (quiet_uunmap _ _ _) fun _ => ?_
  exact Guarantees.ite (quiet_uunmap _ _ _) (guarantees_pure _)

end Quiet

section Wait

variable {system after : System} {caller child : Proc} {addr pid : ℕ}

/-- A pass that reaps a child has found it as the first zombie. -/
theorem scan_eq_reaped {procs : List Proc} {haveKids : Bool}
    (hscan : scan caller addr procs haveKids system = .ok (.reaped pid) after) :
    ∃ child, procs.find? (fun proc =>
        system.waitList proc = some caller ∧ (system.metas proc).state = .zombie) = some child ∧
      reap child addr system = .ok (.reaped pid) after := by
  induction procs generalizing haveKids with
  | nil =>
    change (if _ then (pure Pass.failed : SysM Pass) else pure Pass.asleep) system = _ at hscan
    split at hscan <;> cases hscan
  | cons proc procs ih =>
    change (if _ then (if _ then reap proc addr else _) else _) system =
      _ at hscan
    split at hscan
    · next hkid =>
        split at hscan
        · next hzombie =>
            refine ⟨proc, ?_, hscan⟩
            rw [List.find?_cons_of_pos (by simp [hkid, hzombie])]
        · next hzombie =>
            rw [List.find?_cons_of_neg (by simp [hzombie])]
            exact ih hscan
    · next hkid =>
        rw [List.find?_cons_of_neg (by simp [hkid])]
        exact ih hscan

theorem length_statusBytes (xstate : ℕ) : (statusBytes xstate).length = 8 := by
  rw [statusBytes, List.length_map, List.length_range]

/-- What reaping does: the status is stored through the table of the child. -/
theorem ensures_reap (hformed : ∀ proc space,
      system.memory.spaces proc = some space → space.table.Formed) (haddr : addr ≠ 0) :
    Ensures (reap child addr) system
      (fun pass after => ∃ space, system.memory.spaces child = some space ∧
        ValidRange space.table addr 8 ∧ pass = .reaped (system.metas child).pid ∧
        after.toTable = system.toTable.freeProc child ∧
        after.memory.bytes = storeBytes space.table system.memory.bytes addr
          (statusBytes (system.metas child).xstate)) fun _ _ => True := by
  simp only [reap, ensures_bind, ensures_get, onMemory, ensures_zoom, if_pos haddr]
  refine ensures_space.mpr ⟨fun _ => trivial, fun found hfound => ?_⟩
  have hcopy := ensures_copyOut addr (statusBytes (system.metas child).xstate)
    (paged_of_formed (hformed child found hfound) _ _) system.memory
  refine hcopy.imp ?_ fun _ _ _ => trivial
  rintro copied stored ⟨hreachable, rfl, rfl⟩
  rw [length_statusBytes] at hreachable
  simp only [ensures_bind, ensures_zoom]
  refine (quiet_freeProc _).imp ?_ fun _ _ _ => trivial
  rintro _ freed ⟨hbytes, -⟩
  exact ⟨found, hfound, (reachable_iff.mp hreachable).2, rfl, rfl, hbytes⟩

/-- `wait` reaps the child that the pass over the process table finds, and does
to the table what the pass does. -/
theorem wait_eq_reaped (hformed : ∀ proc space,
      system.memory.spaces proc = some space → space.table.Formed) (haddr : addr ≠ 0)
    (hwait : wait caller addr system = .ok (.reaped pid) after) : ∃ child,
      system.toTable.scan caller = .reaps child ∧ pid = (system.metas child).pid ∧
        after.toTable = system.toTable.freeProc child := by
  obtain ⟨child, hfind, hreap⟩ := scan_eq_reaped hwait
  obtain ⟨_, -, -, hpid, htable, -⟩ := (ensures_reap hformed haddr).eq_ok hreap
  refine ⟨child, ?_, by injection hpid, htable⟩
  rw [WaitList.Table.scan, hfind]

/-! ## Delivery -/

/-- The caller finds the status at the address and everything else as it was,
and nothing else happened to the memory of the processes that go on. -/
structure Delivered (caller child : Proc) (before after : Memory)
    (addr status : ℕ) : Prop where
  arrived : ∀ space, before.spaces caller = some space → ∀ offset < 8,
    userByte space.table after (addr + offset) = (statusBytes status)[offset]?
  rest : ∀ space, before.spaces caller = some space → ∀ va, (∀ offset < 8, va ≠ addr + offset) →
      userByte space.table after va = userByte space.table before va
  others : ∀ other, other ≠ caller → other ≠ child → Unseen other before after

/-- The status arrives by accident: the child still shares the page with its
parent, or the bytes were there already; and where the child shares pages with
other processes the bytes were there already. -/
structure Accidental (caller child : Proc) (before : Memory)
    (addr status : ℕ) : Prop where
  arrives : ∀ own kid, before.spaces caller = some own →
    before.spaces child = some kid → ∀ offset < 8, userFrame kid.table (addr + offset) =
        userFrame own.table (addr + offset) ∨ userByte own.table before (addr + offset) =
        (statusBytes status)[offset]?
  others : ∀ other, other ≠ caller → other ≠ child →
    HarmlessCall child other before (addr, statusBytes status)

variable {before : Memory} {own kid : Space} {status : ℕ}

theorem page_eq (howned : Owned before) {left right : Proc} (hown : before.spaces left = some own)
    (hkid : before.spaces right = some kid) {va va' frame : ℕ}
    (hleft : userFrame own.table va = some frame) (hright : userFrame kid.table va' = some frame) :
    va' / pgSize = va / pgSize := by
  obtain ⟨hpage, hmapped, -⟩ := mapped_of_userFrame howned hown hleft
  obtain ⟨heach, hread, -⟩ := mapped_of_userFrame howned hkid hright
  exact congrArg Fin.val (howned.kept.placed.aligned _ _ _ _ frame hread hmapped)

/-- A byte of the caller is stored only from its own address. -/
theorem userByte_store_of_ne (howned : Owned before) (hown : before.spaces caller = some own)
    (hkid : before.spaces child = some kid) {va : ℕ} (hne : ∀ offset < 8, va = addr + offset →
      userFrame kid.table va ≠ userFrame own.table va) :
    userByte own.table { before with
      bytes := storeBytes kid.table before.bytes addr (statusBytes status) }
        va = userByte own.table before va := by
  unfold userByte
  cases hframe : userFrame own.table va with
  | none => rfl
  | some frame =>
    rw [Option.map_some, Option.map_some]
    refine congrArg some (storeBytes_of_ne ?_)
    intro offset hoffset htarget heq
    rw [length_statusBytes] at hoffset
    have hpage := page_eq howned hown hkid hframe htarget
    have hva : va = addr + offset := by
      rw [← Nat.div_add_mod va pgSize, ← Nat.div_add_mod (addr + offset) pgSize, hpage, heq]
    refine hne offset hoffset hva ?_
    rw [hframe, hva]
    exact htarget

theorem delivered_store_iff (howned : Owned before) (hown : before.spaces caller = some own)
    (hkid : before.spaces child = some kid) (hvalid : ValidRange own.table addr 8)
    {after : Memory} (hafter : after.bytes =
      storeBytes kid.table before.bytes addr (statusBytes status)) :
    Delivered caller child before after addr status ↔
      Accidental caller child before addr status := by
  have hbytes : ∀ table va, userByte table after va =
      userByte table { before with
        bytes := storeBytes kid.table before.bytes addr (statusBytes status) } va := by
    intro table va
    unfold userByte
    rw [hafter]
  have hunaliased := unaliased_of_owned howned hkid
  have hunseen : ∀ other, Unseen other before after ↔
      HarmlessCall child other before (addr, statusBytes status) := by
    intro other
    constructor
    · intro hunseen left right hleft hright
      obtain rfl := Option.some.inj (hkid.symm.trans hleft)
      refine (userByte_storeBytes_iff hunaliased right.table before addr (statusBytes status)).mp ?_
      intro va
      rw [← hbytes]
      exact hunseen right hright va
    · intro hharmless space hspace va
      rw [hbytes]
      exact (userByte_storeBytes_iff hunaliased space.table before addr
        (statusBytes status)).mpr (hharmless kid space hkid hspace) va
  have hstatus : ∀ offset < 8, userByte own.table after (addr + offset) =
          (statusBytes status)[offset]? ↔ userFrame kid.table (addr + offset) =
            userFrame own.table (addr + offset) ∨ userByte own.table before (addr + offset) =
            (statusBytes status)[offset]? := by
    intro offset hoffset
    have hlength : offset < (statusBytes status).length := by rwa [length_statusBytes]
    by_cases hshared : userFrame kid.table (addr + offset) = userFrame own.table (addr + offset)
    · obtain ⟨frame, hframe⟩ := Option.isSome_iff_exists.mp (hvalid offset hoffset)
      refine iff_of_true ?_ (Or.inl hshared)
      rw [hbytes, userByte, hframe, Option.map_some, List.getElem?_eq_getElem hlength]
      exact congrArg some (hunaliased.storeBytes_at hlength (hshared.trans hframe))
    · rw [hbytes, userByte_store_of_ne howned hown hkid (fun _ _ _ => hshared)]
      exact (or_iff_right hshared).symm
  constructor
  · intro hdelivered
    refine ⟨?_, fun other hcaller hchild => (hunseen other).mp
      (hdelivered.others other hcaller hchild)⟩
    intro left right hleft hright offset hoffset
    obtain rfl := Option.some.inj (hown.symm.trans hleft)
    obtain rfl := Option.some.inj (hkid.symm.trans hright)
    exact (hstatus offset hoffset).mp (hdelivered.arrived own hown offset hoffset)
  · intro haccidental
    refine ⟨?_, ?_, fun other hcaller hchild => (hunseen other).mpr
      (haccidental.others other hcaller hchild)⟩
    · intro space hspace offset hoffset
      obtain rfl := Option.some.inj (hown.symm.trans hspace)
      exact (hstatus offset hoffset).mpr (haccidental.arrives own kid hown hkid offset hoffset)
    · intro space hspace va hva
      obtain rfl := Option.some.inj (hown.symm.trans hspace)
      rw [hbytes]
      exact userByte_store_of_ne howned hown hkid
        fun offset hoffset heq => absurd heq (hva offset hoffset)

/-- `wait` with a status address that the caller maps: the status of the child
arrives, and nothing else is written, exactly by accident. -/
theorem wait_delivered_iff {origin : System} (howned : Owned system.memory) (haddr : addr ≠ 0)
    (hown : system.memory.spaces caller = some own) (hvalid : ValidRange own.table addr 8)
    (hchild : zombieChild system caller = some child)
    (hexit : system.metas child = (exit child status origin).metas child)
    (hwait : wait caller addr system = .ok (.reaped pid) after) :
    pid = (origin.metas child).pid ∧
      (Delivered caller child system.memory after.memory addr status ↔
        Accidental caller child system.memory addr status) := by
  obtain ⟨found, hfound, hreap⟩ := scan_eq_reaped hwait
  obtain rfl := Option.some.inj (hchild.symm.trans hfound)
  obtain ⟨kid, hkid, -, hpid, -, hbytes⟩ := (ensures_reap howned.kept.formed haddr).eq_ok hreap
  have hmeta : system.metas child =
      { origin.metas child with xstate := status, state := .zombie } :=
    hexit.trans (origin.toTable.metas_exit child status)
  rw [hmeta] at hpid hbytes
  exact ⟨by injection hpid, delivered_store_iff howned hown hkid hvalid hbytes⟩

/-! ## A parent and its child -/

def family (memory : Memory) : System where
  metas := fun proc =>
    if proc = 0 then ⟨.running, .none, false, 0, 1⟩
    else if proc = 1 then ⟨.running, .none, false, 0, 2⟩
    else ProcMeta.new
  waitList := fun proc => if proc = 1 then some 0 else none
  initProc := 0
  pids := 3
  doing := fun _ => .nothing
  parent := fun proc => if proc = 1 then some 0 else none
  memory := memory

/-- The parent forks and makes its first page its own again. -/
def familyActions : List Action :=
  [.userInit 0 [1, 2, 3], .fork 0 1, .fault 0 0]

def reaped : EStateM.Result Panic System Pass → Option (ℕ × System)
  | .ok (.reaped pid) after => some (pid, after)
  | _ => none

theorem eq_ok_of_reaped {result : EStateM.Result Panic System Pass}
    (hreaped : reaped result = some (pid, after)) : result = .ok (.reaped pid) after := by
  unfold reaped at hreaped
  split at hreaped
  · cases hreaped
    rfl
  · cases hreaped

theorem validRange_of_all {table : Table} {length : ℕ}
    (hall : ((List.range length).all fun offset =>
      (userFrame table (addr + offset)).isSome) = true) : ValidRange table addr length := by
  intro offset hoffset
  exact List.all_eq_true.mp hall offset (List.mem_range.mpr hoffset)

/-- The child exits with status 5, the parent waits for it with the address of a
word in its own, writable page, and the word is still zero. -/
theorem exists_not_delivered : ∃ record memory own after, Run step (boot 64) record memory ∧
      record.map Prod.snd = familyActions ∧ memory.spaces 0 = some own ∧ ValidRange own.table 8 8 ∧
      (own.table.leaf 8).w = true ∧ wait 0 8 (exit 1 5 (family memory)) = .ok (.reaped 2) after ∧
      ¬Delivered 0 1 memory after.memory 8 5 := by
  have hrun : (familyActions.foldlM step (boot 64)).bind (fun memory =>
      (memory.spaces 0).bind fun own =>
        (reaped (wait 0 8 (exit 1 5 (family memory)))).map fun after =>
          (((List.range 8).all fun offset => (userFrame own.table (8 + offset)).isSome),
            (own.table.leaf 8).w, after.1, userByte own.table after.2.memory (8 + 0))) =
              some (true, true, 2, some 0) := by decide +kernel
  obtain ⟨memory, hmemory, hspaces⟩ := Option.bind_eq_some_iff.mp hrun
  obtain ⟨own, hown, hreaped⟩ := Option.bind_eq_some_iff.mp hspaces
  obtain ⟨⟨pid, after⟩, hafter, hfacts⟩ := Option.map_eq_some_iff.mp hreaped
  simp only [Prod.mk.injEq] at hfacts
  obtain ⟨hvalid, hwrite, rfl, hbyte⟩ := hfacts
  obtain ⟨record, hrecord, hactions⟩ := Run.of_foldlM hmemory
  refine ⟨record, memory, own, after, hrecord, hactions, hown,
    validRange_of_all hvalid, hwrite, eq_ok_of_reaped hafter, ?_⟩
  intro hdelivered
  have harrived := hdelivered.arrived own hown 0 (by decide)
  rw [hbyte] at harrived
  exact absurd harrived (by decide)

/-- The child still shares the page of the word with its parent: the status
arrives. -/
theorem wait_delivered_shared : ∃ memory after, Owned memory ∧
    wait 0 8 (exit 1 5 (family memory)) = .ok (.reaped 2) after ∧
      Delivered 0 1 memory after.memory 8 5 := by
  have hrun : ((familyActions.take 2).foldlM step (boot 64)).bind (fun memory =>
      (memory.spaces 0).bind fun own => (memory.spaces 1).bind fun kid =>
        (reaped (wait 0 8 (exit 1 5 (family memory)))).map fun after =>
          (((List.range 8).all fun offset => (userFrame own.table (8 + offset)).isSome),
            ((List.range 8).all fun offset => userFrame kid.table (8 + offset) =
                userFrame own.table (8 + offset)), ((List.finRange nproc).all fun other =>
              other = 0 ∨ other = 1 ∨ (memory.spaces other).isNone),
            decide (zombieChild (exit 1 5 (family memory)) 0 = some 1),
            after.1)) = some (true, true, true, true, 2) := by decide +kernel
  obtain ⟨memory, hmemory, hspaces⟩ := Option.bind_eq_some_iff.mp hrun
  obtain ⟨own, hown, hspaces⟩ := Option.bind_eq_some_iff.mp hspaces
  obtain ⟨kid, hkid, hreaped⟩ := Option.bind_eq_some_iff.mp hspaces
  obtain ⟨⟨pid, after⟩, hafter, hfacts⟩ := Option.map_eq_some_iff.mp hreaped
  simp only [Prod.mk.injEq, decide_eq_true_eq, List.all_eq_true] at hfacts
  obtain ⟨hvalid, hshared, halone, hchild, rfl⟩ := hfacts
  obtain ⟨record, hrecord, -⟩ := Run.of_foldlM hmemory
  have howned : Owned (exit 1 5 (family memory)).memory := (owned_run (owned_boot 64) hrecord).1
  have hwait := eq_ok_of_reaped hafter
  refine ⟨memory, after, howned, hwait, (wait_delivered_iff howned (by decide) hown
      (fun offset hoffset => hvalid offset (List.mem_range.mpr hoffset))
      hchild rfl hwait).2.mpr ⟨?_, ?_⟩⟩
  · intro left right hleft hright offset hoffset
    obtain rfl := Option.some.inj (hown.symm.trans hleft)
    obtain rfl := Option.some.inj (hkid.symm.trans hright)
    exact Or.inl (hshared offset (List.mem_range.mpr hoffset))
  · intro other hcaller hkid left right _ hright
    rcases halone other (List.mem_finRange other) with rfl | rfl | hnone
    · exact absurd rfl hcaller
    · exact absurd rfl hkid
    · change memory.spaces other = some right at hright
      rw [hright] at hnone
      cases hnone

end Wait

end RxOs.ExitStatus
