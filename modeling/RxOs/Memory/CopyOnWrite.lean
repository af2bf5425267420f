import RxOs.Core.Transition
import RxOs.Memory.ProcessPages

/-!
# Copy-on-write over whole runs

Processes are created, fork, fault, grow, shrink and are freed in any order.
In every state that is reached the count of a user page is the number of entries
that map it, a page with a writable entry has no other entry, and no mapped page
is free.  So a user store changes no byte that another process reads.
-/

namespace RxOs.CopyOnWrite

open Function Exec RefCount Transition PageTable Frames UserCopy AddressSpace
open Holdings Sharing ProcessPages
open Kernel (Proc)

/-! ## The system -/

/-- What can happen to memory: the creation of the first process, `fork`, a store
page fault, `grow_proc`, `free_proc`, a store of a user process, and the use of
pages for other kernel data. -/
inductive Action
  | userInit (proc : Proc) (code : List UInt8)
  | fork (parent child : Proc)
  | fault (proc : Proc) (va : ℕ)
  | grow (proc : Proc) (count : ℤ)
  | free (proc : Proc)
  | store (proc : Proc) (va : ℕ) (byte : UInt8)
  | kernelAlloc (slot : Fin npages)
  | kernelFree (slot : Fin npages)

/-- The state in which a program returns, if it does. -/
def outcome {Value : Type} (program : MemM Value) (memory : Memory) : Option Memory :=
  match program memory with
  | .ok _ next => some next
  | .error _ _ => none

def kernelAlloc (slot : Fin npages) : MemM Unit := do
  let frame ← alloc
  modify fun memory => { memory with kernel := update memory.kernel slot (some frame) }

def kernelFree (slot : Fin npages) (frame : ℕ) : MemM Unit := do
  dealloc frame
  modify fun memory => { memory with kernel := update memory.kernel slot none }

/-- One step of the system.  A new process goes to an unused slot; page faults
are handled for mapped addresses below the size, and stores go through entries
with the write bit. -/
def step (memory : Memory) : Action → Option Memory
  | .userInit proc code =>
    if (memory.spaces proc).isNone then outcome (userInit proc code) memory
    else none
  | .fork parent child =>
    if (memory.spaces child).isNone then outcome (fork parent child) memory
    else none
  | .fault proc va =>
    (memory.spaces proc).bind fun space =>
      if va < space.size ∧ (space.table.leaf va).v = true then
        outcome (uloadPage proc va) memory
      else none
  | .grow proc count => outcome (growProc proc count) memory
  | .free proc => outcome (freeProc proc) memory
  | .store proc va byte =>
    (memory.spaces proc).bind fun space =>
      if (space.table.leaf (pageRoundDown va)).w = true ∧
          (userFrame space.table va).isSome = true then
        some { memory with
          bytes := storeByte space.table memory.bytes va byte }
      else none
  | .kernelAlloc slot =>
    if (memory.kernel slot).isNone then outcome (kernelAlloc slot) memory
    else none
  | .kernelFree slot =>
    (memory.kernel slot).bind fun frame => outcome (kernelFree slot frame) memory

section System

variable {memory next first last : Memory} {action : Action}

theorem outcome_eq_some {Value : Type} {program : MemM Value} {kept : Memory → Prop}
    (hyields : Yields program memory fun _ next => kept next)
    (hnext : outcome program memory = some next) : kept next := by
  unfold outcome at hnext
  split at hnext
  · next value middle hrun =>
      cases hnext
      exact hyields.eq_ok hrun
  · cases hnext

theorem refs_of_kernel {flight frame : Option ℕ} {slot : Fin npages}
    (hkernel : next.kernel = update memory.kernel slot frame)
    (hspaces : next.spaces = memory.spaces) :
    refs flight next = update (refs flight memory) (.kernel slot) frame := by
  funext holder
  cases holder with
  | kernel each =>
    change next.kernel each = _
    rw [hkernel]
    by_cases heach : each = slot
    · rw [heach, update_self, update_self]
    · rw [update_of_ne heach, update_of_ne (by simpa using heach)]
      rfl
  | _ =>
    rw [update_of_ne (by simp)]
    simp only [refs, hspaces]

theorem yields_kernelAlloc (howned : Owned memory) {slot : Fin npages}
    (hnone : memory.kernel slot = none) :
    Yields (kernelAlloc slot) memory fun _ next => Owned next := by
  simp only [Yields, kernelAlloc, ensures_bind]
  refine ensures_alloc.mpr ⟨fun _ => trivial, fun frame rest hfree => ?_⟩
  have hempty : (pool none memory).refs (.kernel slot) = none := hnone
  refine owned_of_same howned rfl ⟨?_, howned.kept.formed, howned.kept.placed⟩
  exact howned.kept.balanced.take hempty hfree rfl (refs_of_kernel rfl rfl) fun _ _ => rfl

theorem yields_kernelFree (howned : Owned memory) {slot : Fin npages}
    {frame : ℕ} (hsome : memory.kernel slot = some frame) :
    Yields (kernelFree slot frame) memory fun _ next => Owned next := by
  simp only [Yields, kernelFree, ensures_bind]
  have hheld : (pool none memory).refs (.kernel slot) = some frame := hsome
  refine ensures_dealloc.mpr ⟨fun _ => trivial, fun _ =>
    owned_of_same howned rfl ⟨?_, howned.kept.formed, howned.kept.placed⟩⟩
  exact howned.kept.balanced.drop hheld (dropped_free memory frame) rfl (refs_of_kernel rfl rfl)
    fun _ _ => rfl

theorem yields_fault (howned : Owned memory) {proc : Proc} {space : Space}
    {va : ℕ} (hspace : memory.spaces proc = some space)
    (hva : va < space.size) (hvalid : (space.table.leaf va).v = true) :
    Yields (uloadPage proc va) memory fun _ next => Owned next := by
  have hsize := howned.fits proc _ (profile_eq_some hspace)
  change space.size ≤ trapframe at hsize
  have hvpn : va / pgSize < userPages := by
    have htrapframe : trapframe = 274877898752 := rfl
    have hpages : userPages = 67108862 := rfl
    rw [show pgSize = 4096 from rfl]
    omega
  refine (yields_uloadPage howned.kept hvpn ?_).imp_returned ?_
  · intro found hfound
    obtain rfl := Option.some.inj (hspace.symm.trans hfound)
    exact hvalid
  · rintro _ next ⟨hkept, hprofile⟩
    exact owned_of_same howned hprofile hkept

/-- Every step keeps the invariant. -/
theorem owned_step (howned : Owned memory)
    (hstep : step memory action = some next) : Owned next := by
  cases action with
  | userInit proc code =>
    simp only [step] at hstep
    split at hstep
    · next hnone =>
        exact outcome_eq_some (yields_userInit howned
          (Option.isNone_iff_eq_none.mp hnone) code) hstep
    · cases hstep
  | fork parent child =>
    simp only [step] at hstep
    split at hstep
    · next hnone =>
        exact outcome_eq_some (yields_fork howned (Option.isNone_iff_eq_none.mp hnone)) hstep
    · cases hstep
  | fault proc va =>
    obtain ⟨space, hspace, hload⟩ := Option.bind_eq_some_iff.mp hstep
    split at hload
    · next hmapped => exact outcome_eq_some (yields_fault howned hspace hmapped.1 hmapped.2) hload
    · cases hload
  | grow proc count => exact outcome_eq_some (yields_growProc howned count) hstep
  | free proc => exact outcome_eq_some (yields_freeProc howned) hstep
  | store proc va byte =>
    obtain ⟨space, hspace, hstore⟩ := Option.bind_eq_some_iff.mp hstep
    split at hstore
    · cases hstore
      exact owned_of_same howned rfl (howned.kept.withBytes _)
    · cases hstore
  | kernelAlloc slot =>
    simp only [step] at hstep
    split at hstep
    · next hnone =>
        exact outcome_eq_some (yields_kernelAlloc howned (Option.isNone_iff_eq_none.mp hnone)) hstep
    · cases hstep
  | kernelFree slot =>
    obtain ⟨frame, hframe, hfree⟩ := Option.bind_eq_some_iff.mp hstep
    exact outcome_eq_some (yields_kernelFree howned hframe) hfree

theorem owned_run {record : List (Memory × Action)} (hfirst : Owned first)
    (hrun : Run step first record last) : Owned last ∧ ∀ entry ∈ record, Owned entry.1 :=
  hrun.always (fun _ _ _ howned hstep => owned_step howned hstep) hfirst

/-! ## What the invariant says -/

@[irreducible]
def mappers (memory : Memory) (frame : ℕ) : Finset (Proc × Fin userPages) :=
  Finset.univ.filter fun entry => mapped memory entry.1 entry.2 = some frame

theorem mem_mappers {frame : ℕ} {entry : Proc × Fin userPages} :
    entry ∈ mappers memory frame ↔ mapped memory entry.1 entry.2 = some frame := by
  unfold mappers
  simp only [Finset.mem_filter, Finset.mem_univ, true_and]

/-- The count of a user page is the number of entries that map it, a page with a
writable entry has no other entry, and mapped pages are not free. -/
structure Isolated (memory : Memory) : Prop where
  counted : ∀ proc vpn frame, mapped memory proc vpn = some frame →
    memory.count frame = (mappers memory frame).card
  exclusive : ∀ proc vpn frame, mapped memory proc vpn = some frame →
    writable memory proc vpn = true → ∀ other each,
      mapped memory other each = some frame → other = proc ∧ each = vpn
  not_free : ∀ proc vpn frame, mapped memory proc vpn = some frame → frame ∉ memory.free

theorem sole_of_writable {proc : Proc} {vpn : Fin userPages} {frame : ℕ}
    (hmapped : mapped memory proc vpn = some frame) (hwritable : writable memory proc vpn = true) :
    sole memory (.piece proc (.page vpn)) = true := by
  change (memory.spaces proc).any _ = true
  unfold writable at hwritable
  unfold mapped at hmapped
  cases hspace : memory.spaces proc with
  | none => rw [hspace] at hmapped; cases hmapped
  | some space =>
    rw [hspace, Option.any_some] at hwritable
    rw [hspace, Option.bind_some, target] at hmapped
    rw [Option.any_some]
    change (Pte.v _ && Pte.w _) = true
    split at hmapped
    · next hvalid => rw [hvalid, hwritable]; rfl
    · cases hmapped

/-- A page that is mapped has no holders but the entries that map it. -/
theorem holder_of_mapped (howned : Owned memory) {proc : Proc} {vpn : Fin userPages} {frame : ℕ}
    (hmapped : mapped memory proc vpn = some frame) {holder : Holder}
    (hholder : refs none memory holder = some frame) :
    ∃ other each, holder = .piece other (.page each) := by
  have hpage : (pool none memory).refs (.piece proc (.page vpn)) = some frame := hmapped
  have halone : ∀ mark : Holder, sole memory mark = true → refs none memory mark = some frame →
        .piece proc (.page vpn) = mark :=
    fun mark hsole hmark => howned.kept.balanced.eq_of_sole hmark hsole hpage
  match holder with
  | .flight => cases hholder
  | .kernel _ | .piece _ .root | .piece _ .trapframe | .piece _ (.mid _) | .piece _ (.bottom _ _) =>
    exact ⟨proc, vpn, (halone _ rfl hholder).symm⟩
  | .piece other (.page each) => exact ⟨other, each, rfl⟩

theorem isolated_of_owned (howned : Owned memory) : Isolated memory where
  counted := by
    intro proc vpn frame hmapped
    refine (howned.kept.balanced.counted frame).trans (congrArg Nat.cast ?_)
    symm
    refine Finset.card_bij (fun entry _ => Holder.piece entry.1 (.page entry.2)) ?_ ?_ ?_
    · intro entry hentry
      rw [mem_mappers, mapped_eq_refs none] at hentry
      rw [mem_holders]
      exact hentry
    · rintro ⟨proc, vpn⟩ _ ⟨other, each⟩ _ heq
      rw [Holder.piece.injEq, Piece.page.injEq] at heq
      exact Prod.ext heq.1 heq.2
    · intro holder hholder
      rw [mem_holders] at hholder
      obtain ⟨other, each, rfl⟩ := holder_of_mapped howned hmapped hholder
      refine ⟨(other, each), ?_, rfl⟩
      rw [mem_mappers, mapped_eq_refs none]
      exact hholder
  exclusive := by
    intro proc vpn frame hmapped hwritable other each hother
    have hpage : (pool none memory).refs (.piece proc (.page vpn)) = some frame := hmapped
    have heach : (pool none memory).refs (.piece other (.page each)) = some frame := hother
    have hsame := howned.kept.balanced.eq_of_sole hpage (sole_of_writable hmapped hwritable) heach
    injection hsame with hproc hpiece
    injection hpiece with hvpn
    exact ⟨hproc, hvpn⟩
  not_free := by
    intro proc vpn frame hmapped
    have hpage : (pool none memory).refs (.piece proc (.page vpn)) = some frame := hmapped
    exact howned.kept.balanced.not_free hpage

/-- The page of a user address is one of the user pages. -/
theorem mapped_of_userFrame (howned : Owned memory) {proc : Proc}
    {space : Space} (hspace : memory.spaces proc = some space) {va frame : ℕ}
    (hframe : userFrame space.table va = some frame) :
    ∃ hva : va / pgSize < userPages, mapped memory proc ⟨va / pgSize, hva⟩ = some frame ∧
        writable memory proc ⟨va / pgSize, hva⟩ = (space.table.leaf (pageRoundDown va)).w := by
  unfold userFrame Table.userPage at hframe
  split at hframe
  · next hpage =>
      obtain ⟨hlimit, hvalid, huser⟩ := hpage
      have hcount := lt_vpnCount_of_le_maxVa hlimit
      have hdiv : pageRoundDown va / pgSize = va / pgSize := Nat.mul_div_cancel _ (by decide)
      have hlow : va / pgSize < userPages := by
        by_contra hhigh
        have hupper : upperEntry space.table (va / pgSize) =
            some (space.table.leaf (pageRoundDown va)) := by
          rw [hdiv] at hcount
          exact if_pos ⟨Nat.not_lt.mp hhigh, hcount, hvalid⟩
        rw [(howned.locked proc _ (profile_eq_some hspace)).closed _ _ hupper] at huser
        cases huser
      refine ⟨hlow, ?_, ?_⟩
      · unfold mapped
        rw [hspace, Option.bind_some]
        change target (space.table.leaf (pageRoundDown va)) = _
        rw [target_eq_some hvalid, hframe]
      · unfold writable
        rw [hspace, Option.any_some]
        rfl
  · cases hframe

/-- A user store changes no byte that another process reads. -/
theorem userByte_store (howned : Owned memory) {proc other : Proc}
    (hother : other ≠ proc) {va : ℕ} {byte : UInt8}
    (hstep : step memory (.store proc va byte) = some next) {space : Space}
    (hspace : memory.spaces other = some space) (addr : ℕ) :
    userByte space.table next addr = userByte space.table memory addr := by
  obtain ⟨own, hown, hstore⟩ := Option.bind_eq_some_iff.mp hstep
  split at hstore
  · next hwrite =>
      cases hstore
      obtain ⟨hwritable, htarget⟩ := hwrite
      obtain ⟨target, htarget⟩ := Option.isSome_iff_exists.mp htarget
      obtain ⟨hva, hmapped, hmark⟩ := mapped_of_userFrame howned hown htarget
      unfold userByte
      cases hframe : userFrame space.table addr with
      | none => rfl
      | some frame =>
        have hne : frame ≠ target := by
          rintro rfl
          obtain ⟨hvpn, hread, -⟩ := mapped_of_userFrame howned hspace hframe
          exact hother ((isolated_of_owned howned).exclusive proc _ frame
            hmapped (hmark.trans hwritable) other _ hread).1
        rw [Option.map_some, Option.map_some]
        change some (storeByte own.table memory.bytes va byte frame _) = _
        unfold storeByte
        rw [htarget]
        simp only [update_of_ne hne]
  · cases hstore

/-- In every state of a run the pages are owned as they should be, and no store
of the run changes what another process reads. -/
theorem run_isolated {record : List (Memory × Action)} (hfirst : Owned first)
    (hrun : Run step first record last) :
    (Isolated last ∧ ∀ entry ∈ record, Isolated entry.1) ∧ ∀ entry ∈ record, ∀ proc va byte next,
        entry.2 = .store proc va byte → step entry.1 entry.2 = some next →
          ∀ other ≠ proc, ∀ space, entry.1.spaces other = some space →
            ∀ addr, userByte space.table next addr = userByte space.table entry.1 addr := by
  obtain ⟨hlast, hrecord⟩ := owned_run hfirst hrun
  refine ⟨⟨isolated_of_owned hlast,
    fun entry hentry => isolated_of_owned (hrecord entry hentry)⟩, ?_⟩
  rintro ⟨state, action⟩ hentry proc va byte next rfl hstep other hother space hspace addr
  exact userByte_store (hrecord _ hentry) hother hstep hspace addr

def boot (pages : ℕ) : Memory where
  free := List.range' (kernelPage + 1) pages
  count := fun _ => 0
  bytes := fun _ _ => 0
  spaces := fun _ => none
  kernel := fun _ => none

theorem owned_boot (pages : ℕ) : Owned (boot pages) := by
  have hrefs : ∀ holder, refs none (boot pages) holder = none := by
    intro holder
    cases holder <;> rfl
  refine ⟨⟨⟨?_, List.nodup_range', fun _ _ => rfl, ?_⟩, nofun, nofun, nofun⟩,
    nofun, nofun⟩
  · intro frame
    have hempty : holders (pool none (boot pages)).refs frame = ∅ := by
      refine Finset.eq_empty_of_forall_notMem ?_
      intro holder hholder
      rw [mem_holders] at hholder
      cases (hrefs holder).symm.trans hholder
    rw [hempty]
    rfl
  · intro holder frame hheld
    cases (hrefs holder).symm.trans hheld

/-- A process forks, the child writes to the shared page, the parent grows and
forks again, and the first child is freed. -/
def forkActions : List Action :=
  [.userInit 0 [1, 2, 3], .fork 0 1, .fault 1 0, .store 1 0 7, .grow 0 4096, .fork 0 2, .free 1]

theorem run_isolated_fork : Owned (boot 64) ∧ ∃ record last, Run step (boot 64) record last ∧
      record.map Prod.snd = forkActions ∧ Isolated last := by
  have hfold : (forkActions.foldlM step (boot 64)).isSome = true := by decide +kernel
  obtain ⟨last, hlast⟩ := Option.isSome_iff_exists.mp hfold
  obtain ⟨record, hrun, hactions⟩ := Run.of_foldlM hlast
  exact ⟨owned_boot 64, record, last, hrun, hactions, (run_isolated (owned_boot 64) hrun).1.1⟩

end System

end RxOs.CopyOnWrite
