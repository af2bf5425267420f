import RxOs.Core.LoadStore
import RxOs.Core.Transition
import RxOs.Memory.PageTable

/-!
# The assembly code

`trampoline.S` and `switch.S`, with the parts of `trap.rs` that work on the trap
frame of a process.  A process does not notice its traps, and a kernel thread
that is switched to goes on with the registers it had.
-/

namespace RxOs.Assembly

open Function Transition LoadStore WriteTrace

inductive Reg
  | ra | sp | gp | tp | t0 | t1 | t2 | s0 | s1 | a0 | a1 | a2 | a3 | a4 | a5
  | a6 | a7 | s2 | s3 | s4 | s5 | s6 | s7 | s8 | s9 | s10 | s11 | t3 | t4 | t5
  | t6
  deriving DecidableEq

inductive Csr
  | satp | sscratch | sepc
  deriving DecidableEq

abbrev Hart := LoadStore.Hart Reg Csr

abbrev Code := List (Instr Reg Csr)

/-! ## Traps from user mode -/

/-- The registers that `uservec` saves first and `userret` restores. -/
def userSlots : List (Reg × ℕ) :=
  [(.ra, 40), (.sp, 48), (.gp, 56), (.tp, 64), (.t0, 72), (.t1, 80), (.t2, 88),
    (.s0, 96), (.s1, 104), (.a1, 120), (.a2, 128), (.a3, 136), (.a4, 144),
    (.a5, 152), (.a6, 160), (.a7, 168), (.s2, 176), (.s3, 184), (.s4, 192),
    (.s5, 200), (.s6, 208), (.s7, 216), (.s8, 224), (.s9, 232), (.s10, 240),
    (.s11, 248), (.t3, 256), (.t4, 264), (.t5, 272), (.t6, 280)]

def uservec : Code :=
  [.csrrw .a0 .sscratch .a0] ++ saves userSlots .a0 ++
    [.csrr .t0 .sscratch, .sd .t0 112 .a0, .csrr .t0 .sepc, .sd .t0 24 .a0,
      .ld .sp 8 .a0, .ld .tp 32 .a0, .ld .t0 16 .a0, .ld .t1 0 .a0, .csrw .satp .t1, .jr .t0]

def userret : Code :=
  [.csrw .satp .a1, .ld .t0 112 .a0, .csrw .sscratch .t0] ++
    loads userSlots .a0 ++ [.csrrw .a0 .sscratch .a0, .ret .sepc]

/-- What brings a process into the kernel. -/
inductive Cause
  /-- An interrupt, or a page fault that has been handled. -/
  | interrupt
  | syscall (result : Word)
  /-- `exec`, with the page table that it installs. -/
  | exec (entry sp argc satp : Word)

/-- What `user_trap` and the code it calls store in the trap frame. -/
def Cause.stores (epc : Word) : Cause → List (ℕ × Word)
  | .interrupt => [(24, epc)]
  | .syscall result => [(24, epc), (24, epc + 4), (112, result)]
  | .exec entry sp argc _ =>
    [(24, epc), (24, epc + 4), (120, sp), (24, entry), (48, sp), (112, argc)]

/-- What the kernel knows of a process: the page of its trap frame, the top of
its kernel stack, the page table of the kernel and the address of
`user_trap`. -/
structure Process where
  page : Word
  stack : Word
  satp : Word
  handler : Word

def Process.slot (process : Process) (offset : ℕ) : Word :=
  process.page + BitVec.ofNat 64 offset

def Process.store (process : Process) (stores : List (ℕ × Word)) (hart : Hart) : Hart :=
  { hart with
    mem := applyWrites (stores.map fun store => (process.slot store.1, store.2)) hart.mem }

/-- `user_init`, with `cpuid` in `tp`. -/
def Process.userInit (process : Process) (hart : Hart) : Hart :=
  process.store [(0, hart.csrs .satp), (8, process.stack),
    (16, process.handler), (32, hart.regs .tp)] hart

/-- `user_trap_ret`, up to the jump to `userret`. -/
def Process.userTrapRet (process : Process) (satp : Word) (hart : Hart) : Hart :=
  let hart := process.userInit hart
  { hart with
    csrs := update hart.csrs .sepc (hart.mem (process.slot 24))
    regs := update (update hart.regs .a0 (BitVec.ofNat 64 PageTable.trapframe)) .a1 satp }

variable (space : Word → Word → Word)

/-- The translation of the page table in `satp`. -/
def translate (csrs : Csr → Word) : Word → Word :=
  space (csrs .satp)

/-- The hardware takes the trap, and `uservec` runs. -/
def enter (hart : Hart) : Hart :=
  exec (translate space) uservec { hart with csrs := update hart.csrs .sepc hart.pc }

/-- A process in user mode computes, or traps; `kernel` is the state in which
the kernel gets to `user_trap_ret`, maybe on another CPU. -/
inductive Action
  | compute (regs : Reg → Word) (pc : Word) (mem : Word → Word)
  | trap (cause : Cause) (kernel : Hart)

def Cause.satp (hart : Hart) : Cause → Word
  | .exec _ _ _ satp => satp
  | _ => hart.csrs .satp

def Process.handled (process : Process) (cause : Cause) (hart : Hart) : Hart :=
  process.store (cause.stores ((enter space hart).csrs .sepc)) (enter space hart)

def Process.step (process : Process) (hart : Hart) : Action → Option Hart
  | .compute regs pc mem => some { hart with regs := regs, pc := pc, mem := mem }
  | .trap cause kernel =>
    some (exec (translate space) userret (process.userTrapRet (cause.satp hart) kernel))

def Process.Mapped (process : Process) (satp : Word) : Prop :=
  ∀ offset < 4096, space satp (BitVec.ofNat 64 PageTable.trapframe +
    BitVec.ofNat 64 offset) = process.slot offset

def Process.Spares (process : Process) (before after : Hart) : Prop :=
  ∀ offset < 4096, after.mem (process.slot offset) = before.mem (process.slot offset)

def Process.Admitted (process : Process) (hart : Hart) : Action → Prop
  | .compute regs pc mem => process.Spares hart { hart with regs := regs, pc := pc, mem := mem }
  | .trap cause kernel =>
    process.Spares (process.handled space cause hart) kernel ∧ kernel.csrs .satp = process.satp ∧
      process.Mapped space (cause.satp hart)

/-- What a process sees of itself. -/
structure User where
  regs : Reg → Word
  pc : Word

def User.after (user : User) : Action → User
  | .compute regs pc _ => ⟨regs, pc⟩
  | .trap .interrupt _ => user
  | .trap (.syscall result) _ => ⟨update user.regs .a0 result, user.pc + 4⟩
  | .trap (.exec entry sp argc _) _ =>
    ⟨update (update (update user.regs .a1 sp) .sp sp) .a0 argc, entry⟩

/-- A process in user mode. -/
structure InUser (process : Process) (user : User) (hart : Hart) : Prop where
  regs_eq : hart.regs = user.regs
  pc_eq : hart.pc = user.pc
  scratch : hart.csrs .sscratch = BitVec.ofNat 64 PageTable.trapframe
  mapped : process.Mapped space (hart.csrs .satp)
  satp : hart.mem (process.slot 0) = process.satp
  stack : hart.mem (process.slot 8) = process.stack
  handler : hart.mem (process.slot 16) = process.handler

variable {space} {process : Process} {user : User} {hart : Hart}

theorem slot_injOn : Set.InjOn process.slot (Set.Iio 4096) := by
  intro left hleft right hright heq
  have hwords := (BitVec.add_right_inj process.page).mp heq
  have hnats := congrArg BitVec.toNat hwords
  rw [BitVec.toNat_ofNat, BitVec.toNat_ofNat] at hnats
  rw [Set.mem_Iio] at hleft hright
  omega

theorem store_slot {stores : List (ℕ × Word)}
    (hstores : ∀ store ∈ stores, store.1 < 4096) {offset : ℕ} (hoffset : offset < 4096) :
    (process.store stores hart).mem (process.slot offset) =
      applyWrites stores (hart.mem ∘ process.slot) offset :=
  applyWrites_place slot_injOn hstores hoffset hart.mem

/-- What `uservec` stores. -/
def User.frame (user : User) : List (ℕ × Word) :=
  (userSlots.map fun slot => (slot.2, user.regs slot.1)) ++ [(112, user.regs .a0), (24, user.pc)]

theorem frame_offset (user : User) :
    ∀ store ∈ user.frame, store.1 < 4096 ∧ (store.1 = 24 ∨ 40 ≤ store.1) := by
  simp [User.frame, userSlots]

/-- The state in which `user_trap` begins. -/
structure Entered (process : Process) (user : User) (hart entered : Hart) :
    Prop where
  mem_eq : entered.mem = (process.store user.frame hart).mem
  sepc_eq : entered.csrs .sepc = user.pc
  satp_eq : entered.csrs .satp = process.satp
  stack_eq : entered.regs .sp = process.stack
  pc_eq : entered.pc = process.handler

theorem InUser.entered (huser : InUser space process user hart) :
    Entered process user hart (enter space hart) := by
  obtain ⟨regs, csrs, mem, pc⟩ := hart
  obtain ⟨hregs, hpc, hscratch, hmapped, hsatp, hstack, hhandler⟩ := huser
  change regs = user.regs at hregs
  change pc = user.pc at hpc
  subst hregs hpc
  have hplace : ∀ offset < 4096, space (csrs .satp)
      (csrs .sscratch + BitVec.ofNat 64 offset) = process.slot offset := by
    intro offset hoffset
    rw [show csrs .sscratch = _ from hscratch]
    exact hmapped offset hoffset
  have hmem : (enter space ⟨user.regs, csrs, mem, user.pc⟩).mem =
      (process.store user.frame ⟨user.regs, csrs, mem, user.pc⟩).mem := by
    change applyWrites (user.frame.map fun store => (space (csrs .satp)
      (csrs .sscratch + BitVec.ofNat 64 store.1), store.2)) mem = _
    apply congrArg (applyWrites · mem)
    apply List.map_congr_left
    intro store hstore
    rw [hplace store.1 (frame_offset user store hstore).1]
  -- The words for the kernel are not among those that are stored.
  have hword : ∀ offset < 33, offset ≠ 24 → (enter space ⟨user.regs, csrs, mem, user.pc⟩).mem
        (space (csrs .satp) (csrs .sscratch + BitVec.ofNat 64 offset)) =
          mem (process.slot offset) := by
    intro offset hoffset hepc
    rw [hplace offset (by omega), hmem, store_slot
      (fun store hstore => (frame_offset user store hstore).1) (by omega)]
    apply applyWrites_off
    intro store hstore heq
    have hstored := (frame_offset user store hstore).2
    omega
  constructor
  · exact hmem
  · rfl
  · exact (hword 0 (by decide) (by decide)).trans hsatp
  · exact (hword 8 (by decide) (by decide)).trans hstack
  · exact (hword 16 (by decide) (by decide)).trans hhandler

/-- What `userret` makes of a trap frame. -/
theorem userret_eq (hart : Hart) (hmapped : process.Mapped space (hart.regs .a1))
    (hbase : hart.regs .a0 = BitVec.ofNat 64 PageTable.trapframe) :
    ∃ final, exec (translate space) userret hart = final ∧ (∀ slot ∈ (.a0, 112) :: userSlots,
        final.regs slot.1 = hart.mem (process.slot slot.2)) ∧
      final.pc = hart.csrs .sepc ∧ final.mem = hart.mem ∧
      final.csrs .sscratch = BitVec.ofNat 64 PageTable.trapframe ∧
      final.csrs .satp = hart.regs .a1 := by
  have hplace : ∀ offset < 4096, space (hart.regs .a1)
      (hart.regs .a0 + BitVec.ofNat 64 offset) = process.slot offset := by
    intro offset hoffset
    rw [hbase]
    exact hmapped offset hoffset
  refine ⟨_, rfl, ?_, rfl, rfl, hbase, rfl⟩
  have hslots : ∀ slot ∈ (Reg.a0, 112) :: userSlots, slot.2 < 4096 := by decide
  intro slot hslot
  rw [← hplace slot.2 (hslots slot hslot)]
  fin_cases hslot <;> rfl

theorem exists_slot (reg : Reg) : ∃ slot ∈ (Reg.a0, 112) :: userSlots, slot.1 = reg := by
  cases reg <;> decide

/-- The trap frame that a process returns with. -/
theorem InUser.returned (huser : InUser space process user hart) {cause : Cause} {kernel : Hart}
    (hspares : process.Spares (process.handled space cause hart) kernel)
    {offset : ℕ} (hoffset : offset < 4096) (hown : offset = 24 ∨ 40 ≤ offset) :
    (process.userInit kernel).mem (process.slot offset) =
      applyWrites (user.frame ++ cause.stores user.pc) (hart.mem ∘ process.slot) offset := by
  have hstores : ∀ store ∈ user.frame ++ cause.stores user.pc, store.1 < 4096 := by
    cases cause <;> simp [User.frame, userSlots, Cause.stores]
  calc
    _ = kernel.mem (process.slot offset) := by
        rw [Process.userInit, store_slot (by simp) hoffset]
        apply applyWrites_off
        simp
        omega
    _ = (process.handled space cause hart).mem (process.slot offset) := hspares offset hoffset
    _ = (process.store (user.frame ++ cause.stores user.pc) hart).mem (process.slot offset) := by
        rw [Process.handled, huser.entered.sepc_eq, Process.store,
          Process.store, List.map_append, applyWrites_append, huser.entered.mem_eq, Process.store]
    _ = _ := store_slot hstores hoffset

theorem InUser.trap (huser : InUser space process user hart) {cause : Cause} {kernel : Hart}
    (hadmitted : process.Admitted space hart (.trap cause kernel)) :
    InUser space process (user.after (.trap cause kernel)) (exec (translate space) userret
        (process.userTrapRet (cause.satp hart) kernel)) := by
  obtain ⟨hspares, hkernel, hmapped⟩ := hadmitted
  obtain ⟨final, hfinal, hregs, hpc, hmem, hscratch, hsatp⟩ :=
    userret_eq (process.userTrapRet (cause.satp hart) kernel) hmapped rfl
  have hword : ∀ {offset : ℕ}, offset < 4096 →
      final.mem (process.slot offset) = applyWrites [(0, process.satp),
        (8, process.stack), (16, process.handler), (32, kernel.regs .tp)]
          (kernel.mem ∘ process.slot) offset := by
    intro offset hoffset
    rw [hmem, ← hkernel]
    exact store_slot (by simp) hoffset
  rw [hfinal]
  constructor
  · funext reg
    obtain ⟨slot, hslot, rfl⟩ := exists_slot reg
    have hslots : ∀ slot ∈ (Reg.a0, 112) :: userSlots, slot.2 < 4096 ∧ 40 ≤ slot.2 := by decide
    have hoffset := hslots slot hslot
    calc
      final.regs slot.1 = _ := hregs slot hslot
      _ = _ := huser.returned hspares hoffset.1 (Or.inr hoffset.2)
      _ = _ := by fin_cases hslot <;> cases cause <;> rfl
  · calc
      final.pc = _ := hpc
      _ = _ := huser.returned hspares (by decide) (Or.inl rfl)
      _ = _ := by
          cases cause <;> rfl
  · exact hscratch
  · rw [hsatp]
    exact hmapped
  · exact hword (by decide)
  · exact hword (by decide)
  · exact hword (by decide)

theorem step_inUser {action : Action} {next : Hart} (huser : InUser space process user hart)
    (hadmitted : process.Admitted space hart action)
    (hstep : process.step space hart action = some next) :
    InUser space process (user.after action) next := by
  cases action with
  | compute regs pc mem =>
    obtain rfl := Option.some.inj hstep
    exact ⟨rfl, rfl, huser.scratch, huser.mapped, (hadmitted 0 (by decide)).trans huser.satp,
      (hadmitted 8 (by decide)).trans huser.stack, (hadmitted 16 (by decide)).trans huser.handler⟩
  | trap cause kernel =>
    obtain rfl := Option.some.inj hstep
    exact huser.trap hadmitted

/-- A process does not notice interrupts, and finds its registers after a
system call as they were except for the result; each trap is handled on its
kernel stack. -/
theorem run_unnoticed {first last : Hart} {record : List (Hart × Action)}
    (hfirst : InUser space process ⟨first.regs, first.pc⟩ first)
    (hrun : Run (process.step space) first record last)
    (hadmitted : ∀ entry ∈ record, process.Admitted space entry.1 entry.2) :
    InUser space process (record.foldl (fun user entry => user.after entry.2)
        ⟨first.regs, first.pc⟩) last ∧ ∀ entry ∈ record, ∃ user,
        Entered process user entry.1 (enter space entry.1) := by
  constructor
  · apply Run.remembers _ hrun hfirst hadmitted
    intro user hart action next
    exact step_inUser
  · have hinvariant : (∃ user, InUser space process user last) ∧
        ∀ entry ∈ record, ∃ user, InUser space process user entry.1 := by
      apply Run.invariant _ hrun ⟨_, hfirst⟩ hadmitted
      intro hart action next ⟨user, huser⟩ hadmitted hstep
      exact ⟨_, step_inUser huser hadmitted hstep⟩
    intro entry hentry
    obtain ⟨user, huser⟩ := hinvariant.2 entry hentry
    exact ⟨user, huser.entered⟩

def bare (_ : Word) (address : Word) : Word :=
  address

def sampleProcess : Process where
  page := BitVec.ofNat 64 PageTable.trapframe
  stack := 65536
  satp := 65536
  handler := 65536

def sampleHart (value : Word) : Hart where
  regs := fun _ => value
  csrs := fun csr => if csr = .sscratch then sampleProcess.page else 0
  mem := fun _ => 65536
  pc := value

/-- The process computes and makes a system call, which returns 5. -/
def sampleRecord : List (Hart × Action) :=
  [(sampleHart 0, .compute (fun _ => 7) 7 fun _ => 65536), (sampleHart 7, .trap (.syscall 5)
      { sampleProcess.handled bare (.syscall 5) (sampleHart 7) with
        csrs := fun _ => 65536 })]

theorem run_unnoticed_syscall : ∃ last,
    Run (sampleProcess.step bare) (sampleHart 0) sampleRecord last ∧
      last.regs = update (fun _ => 7) .a0 5 ∧ last.pc = 7 + 4 := by
  have hspace : ∀ satp, sampleProcess.Mapped bare satp := fun _ _ _ => rfl
  have huser : InUser bare sampleProcess ⟨_, _⟩ (sampleHart 0) :=
    ⟨rfl, rfl, rfl, hspace _, rfl, rfl, rfl⟩
  have hrun : Run (sampleProcess.step bare) (sampleHart 0) sampleRecord _ :=
    Run.step rfl (Run.step rfl (Run.done _))
  have hadmitted : ∀ entry ∈ sampleRecord, sampleProcess.Admitted bare entry.1 entry.2 := by
    intro entry hentry
    fin_cases hentry
    · exact fun _ _ => rfl
    · exact ⟨fun _ _ => rfl, rfl, hspace _⟩
  have hlast := (run_unnoticed huser hrun hadmitted).1
  exact ⟨_, hrun, hlast.regs_eq, hlast.pc_eq⟩

/-! ## The context switch -/

def contextSlots : List (Reg × ℕ) :=
  [(.ra, 0), (.sp, 8), (.s0, 16), (.s1, 24), (.s2, 32), (.s3, 40), (.s4, 48),
    (.s5, 56), (.s6, 64), (.s7, 72), (.s8, 80), (.s9, 88), (.s10, 96), (.s11, 104)]

def switch : Code :=
  saves contextSlots .a0 ++ loads contextSlots .a1 ++ [.jr .ra]

variable (space)

/-- The new registers come from memory as it is when the old ones are saved. -/
theorem exec_switch (hart : Hart) :
    ∃ next, exec (translate space) switch hart = next ∧
      next.csrs = hart.csrs ∧
      next.mem = applyWrites (contextSlots.map fun slot : Reg × ℕ =>
        (hart.place (translate space) .a0 slot.2, hart.regs slot.1)) hart.mem ∧
      ∀ slot ∈ contextSlots, next.regs slot.1 =
        next.mem (hart.place (translate space) .a1 slot.2) := by
  have hbase : ∀ slot ∈ contextSlots, slot.1 ≠ .a1 := by decide
  refine ⟨_, rfl, ?_⟩
  rw [switch, exec_append, exec_append, exec_saves]
  generalize applyWrites (contextSlots.map fun slot : Reg × ℕ =>
    (hart.place (translate space) .a0 slot.2, hart.regs slot.1)) hart.mem = mem
  refine ⟨?_, ?_, ?_⟩
  · rw [exec_loads hbase]
    rfl
  · rw [exec_loads hbase]
    rfl
  · intro slot hslot
    refine (exec_loads_of_mem hbase (by decide) _ hslot).trans ?_
    rw [exec_loads hbase]
    rfl

/-- Kernel threads that share a CPU, each with the address of its `Context`. -/
structure Threads (Thread : Type*) where
  hart : Hart
  running : Thread

/-- The running thread computes, or switches to another one. -/
inductive Turn (Thread : Type*)
  | compute (hart : Hart)
  | switch (target : Thread)

variable {Thread : Type*} [DecidableEq Thread] (satp : Word) (context : Thread → Word)

def Threads.step (threads : Threads Thread) : Turn Thread → Option (Threads Thread)
  | .compute hart => some { threads with hart := hart }
  | .switch target =>
    some ⟨exec (translate space) Assembly.switch
      { threads.hart with
        regs := update (update threads.hart.regs .a0
          (context threads.running)) .a1 (context target) }, target⟩

def contextSlot (index : Thread × ℕ) : Word :=
  space satp (context index.1 + BitVec.ofNat 64 index.2)

/-- Threads leave the contexts and the page table alone. -/
def Threads.Admitted (threads : Threads Thread) : Turn Thread → Prop
  | .compute hart =>
    hart.csrs .satp = satp ∧ ∀ thread, ∀ slot ∈ contextSlots,
      hart.mem (contextSlot space satp context (thread, slot.2)) =
        threads.hart.mem (contextSlot space satp context (thread, slot.2))
  | .switch _ => True

def follow (own : (Thread → Reg → Word) × Thread) :
    Turn Thread → (Thread → Reg → Word) × Thread
  | .compute hart => (update own.1 own.2 hart.regs, own.2)
  | .switch target => (own.1, target)

/-- The running thread has its registers, the others have theirs in their
contexts. -/
structure Kept (own : (Thread → Reg → Word) × Thread) (threads : Threads Thread) : Prop where
  running_eq : threads.running = own.2
  satp_eq : threads.hart.csrs .satp = satp
  regs_eq : ∀ slot ∈ contextSlots, threads.hart.regs slot.1 = own.1 own.2 slot.1
  saved : ∀ thread ≠ own.2, ∀ slot ∈ contextSlots,
    threads.hart.mem (contextSlot space satp context (thread, slot.2)) = own.1 thread slot.1

variable {space satp context} {own : (Thread → Reg → Word) × Thread} {threads : Threads Thread}

theorem Kept.switch (hcontexts : Set.InjOn (contextSlot space satp context)
      (Set.univ ×ˢ Set.Iio 112)) (hkept : Kept space satp context own threads) (target : Thread)
    {next : Threads Thread} (hstep : threads.step space context (.switch target) = some next) :
    Kept space satp context (follow own (.switch target)) next := by
  obtain rfl := Option.some.inj hstep
  obtain ⟨next, hnext, hcsrs, hmem, hregs⟩ := exec_switch space
    { threads.hart with
      regs := update (update threads.hart.regs .a0 (context threads.running)) .a1 (context target) }
  have hoffsets : ∀ slot ∈ contextSlots, slot.2 < 112 := by decide
  have hword : ∀ thread, ∀ slot ∈ contextSlots,
      next.mem (contextSlot space satp context (thread, slot.2)) = own.1 thread slot.1 := by
    intro thread slot hslot
    have hstores : next.mem = applyWrites ((contextSlots.map fun slot =>
        ((own.2, slot.2), threads.hart.regs slot.1)).map fun store =>
          (contextSlot space satp context store.1, store.2)) threads.hart.mem := by
      rw [hmem, ← hkept.satp_eq, ← hkept.running_eq]
      rfl
    have harea : ∀ store ∈ contextSlots.map fun slot => ((own.2, slot.2), threads.hart.regs slot.1),
        store.1 ∈ Set.univ ×ˢ Set.Iio 112 := by
      intro store hstore
      obtain ⟨other, hother, rfl⟩ := List.mem_map.mp hstore
      exact ⟨trivial, hoffsets other hother⟩
    have hindex : (thread, slot.2) ∈ Set.univ ×ˢ Set.Iio 112 := ⟨trivial, hoffsets slot hslot⟩
    rw [hstores, applyWrites_place hcontexts harea hindex]
    by_cases hthread : thread = own.2
    · rw [hthread, ← hkept.regs_eq slot hslot]
      have hnodup : (contextSlots.map Prod.snd).Nodup := by decide
      exact applyWrites_of_mem (List.Nodup.of_map Prod.snd hnodup)
        ((own.2, slot.2), threads.hart.regs slot.1) (List.mem_map.mpr ⟨slot, hslot, rfl⟩) _
    · rw [applyWrites_off]
      · exact hkept.saved thread hthread slot hslot
      · intro store hstore heq
        obtain ⟨other, -, rfl⟩ := List.mem_map.mp hstore
        exact hthread (congrArg Prod.fst heq).symm
  rw [hnext]
  constructor
  · rfl
  · exact (congrFun hcsrs .satp).trans hkept.satp_eq
  · intro slot hslot
    refine Eq.trans ?_ (hword target slot hslot)
    rw [hregs slot hslot, Hart.place, contextSlot, ← hkept.satp_eq]
    rfl
  · intro thread _ slot hslot
    exact hword thread slot hslot

/-- A thread that is switched to goes on with the registers that it had. -/
theorem run_resumes (hcontexts : Set.InjOn (contextSlot space satp context)
      (Set.univ ×ˢ Set.Iio 112)) {first last : Threads Thread}
    {record : List (Threads Thread × Turn Thread)} (hfirst : Kept space satp context own first)
    (hrun : Run (Threads.step space context) first record last) (hadmitted : ∀ entry ∈ record,
      entry.1.Admitted space satp context entry.2) :
    Kept space satp context (record.foldl (fun own entry => follow own entry.2) own) last := by
  apply Run.remembers _ hrun hfirst hadmitted
  intro own threads turn next hkept hadmitted hstep
  cases turn with
  | compute hart =>
    obtain rfl := Option.some.inj hstep
    obtain ⟨hsatp, hspared⟩ := hadmitted
    constructor
    · exact hkept.running_eq
    · exact hsatp
    · intro slot hslot
      exact (congrFun (update_self own.2 hart.regs own.1) slot.1).symm
    · intro thread hthread slot hslot
      calc
        _ = _ := hspared thread slot hslot
        _ = own.1 thread slot.1 := hkept.saved thread hthread slot hslot
        _ = _ := (congrFun (update_of_ne hthread hart.regs own.1) slot.1).symm
  | switch target => exact hkept.switch hcontexts target hstep

def twoContexts (thread : Bool) : Word :=
  if thread then 4096 else 0

theorem twoContexts_injOn : Set.InjOn (contextSlot bare 0 twoContexts)
    (Set.univ ×ˢ Set.Iio 112) := by
  rintro ⟨left, i⟩ ⟨-, hi⟩ ⟨right, j⟩ ⟨-, hj⟩ heq
  have hnats := congrArg BitVec.toNat heq
  change i < 112 at hi
  change j < 112 at hj
  cases left <;> cases right <;>
    simp [contextSlot, bare, twoContexts] at hnats ⊢ <;> omega

/-- The first thread computes, the second gets a turn, and the first goes
on. -/
theorem run_resumes_two : ∃ record last,
    Run (Threads.step bare twoContexts) ⟨sampleHart 0, false⟩ record last ∧ record.map Prod.snd =
        [.compute (sampleHart 7), .switch true, .switch false] ∧
      ∀ slot ∈ contextSlots, last.hart.regs slot.1 = 7 := by
  have hkept : Kept bare 0 twoContexts (fun thread _ => if thread then 65536 else 0, false)
      ⟨sampleHart 0, false⟩ := by
    refine ⟨rfl, rfl, fun _ _ => rfl, ?_⟩
    intro thread hthread slot _
    cases thread
    · exact absurd rfl hthread
    · rfl
  have hrun : Run (Threads.step bare twoContexts) ⟨sampleHart 0, false⟩
      [(⟨sampleHart 0, false⟩, .compute (sampleHart 7)), (_, .switch true), (_, .switch false)] _ :=
    Run.step rfl (Run.step rfl (Run.step rfl (Run.done _)))
  have hlast := run_resumes twoContexts_injOn hkept hrun (by
    intro entry hentry
    fin_cases hentry
    · exact ⟨rfl, fun _ _ _ => rfl⟩
    · trivial
    · trivial)
  exact ⟨_, _, hrun, rfl, hlast.regs_eq⟩

end RxOs.Assembly
