import RxOs.Core.WriteTrace

/-!
# Code that saves and restores registers

A processor with registers, control registers and memory that is reached
through an address translation.  Straight-line code that saves registers in an
area of memory is seen as writes to the offsets of that area: the translation
has to take different offsets to different places and nothing else.
-/

namespace RxOs.LoadStore

open Function WriteTrace

abbrev Word := BitVec 64

/-- Memory is that of doublewords, by address. -/
structure Hart (Reg Csr : Type*) where
  regs : Reg → Word
  csrs : Csr → Word
  mem : Word → Word
  pc : Word

inductive Instr (Reg Csr : Type*)
  | sd (source : Reg) (offset : ℕ) (base : Reg)
  | ld (target : Reg) (offset : ℕ) (base : Reg)
  | csrrw (target : Reg) (csr : Csr) (source : Reg)
  | csrr (target : Reg) (csr : Csr)
  | csrw (csr : Csr) (source : Reg)
  /-- A jump to the address in a register. -/
  | jr (target : Reg)
  /-- A return from a trap, to the address in a control register. -/
  | ret (csr : Csr)

variable {Reg Csr : Type*} (translate : (Csr → Word) → Word → Word)

/-- The doubleword that an instruction with this base and offset is about. -/
def Hart.place (hart : Hart Reg Csr) (base : Reg) (offset : ℕ) : Word :=
  translate hart.csrs (hart.regs base + BitVec.ofNat 64 offset)

def saves (slots : List (Reg × ℕ)) (base : Reg) : List (Instr Reg Csr) :=
  slots.map fun slot => .sd slot.1 slot.2 base

def loads (slots : List (Reg × ℕ)) (base : Reg) : List (Instr Reg Csr) :=
  slots.map fun slot => .ld slot.1 slot.2 base

variable [DecidableEq Reg] [DecidableEq Csr]

def step (hart : Hart Reg Csr) : Instr Reg Csr → Hart Reg Csr
  | .sd source offset base =>
    { hart with
      mem := update hart.mem (hart.place translate base offset) (hart.regs source) }
  | .ld target offset base =>
    { hart with
      regs := update hart.regs target (hart.mem (hart.place translate base offset)) }
  | .csrrw target csr source =>
    { hart with
      regs := update hart.regs target (hart.csrs csr)
      csrs := update hart.csrs csr (hart.regs source) }
  | .csrr target csr => { hart with regs := update hart.regs target (hart.csrs csr) }
  | .csrw csr source => { hart with csrs := update hart.csrs csr (hart.regs source) }
  | .jr target => { hart with pc := hart.regs target }
  | .ret csr => { hart with pc := hart.csrs csr }

def exec (code : List (Instr Reg Csr)) (hart : Hart Reg Csr) : Hart Reg Csr :=
  code.foldl (step translate) hart

theorem exec_append (first second : List (Instr Reg Csr)) (hart : Hart Reg Csr) :
    exec translate (first ++ second) hart = exec translate second (exec translate first hart) :=
  List.foldl_append

/-- The writes of a block of stores. -/
theorem exec_saves (slots : List (Reg × ℕ)) (base : Reg) (hart : Hart Reg Csr) :
    exec translate (saves slots base) hart =
      { hart with
        mem := applyWrites (slots.map fun slot =>
          (hart.place translate base slot.2, hart.regs slot.1)) hart.mem } := by
  induction slots generalizing hart with
  | nil => rfl
  | cons slot slots ih => exact ih _

variable {translate} {slots : List (Reg × ℕ)} {base : Reg}

/-- The writes of a block of loads. -/
theorem exec_loads (hbase : ∀ slot ∈ slots, slot.1 ≠ base) (hart : Hart Reg Csr) :
    exec translate (loads slots base) hart =
      { hart with
        regs := applyWrites (slots.map fun slot =>
          (slot.1, hart.mem (hart.place translate base slot.2))) hart.regs } := by
  induction slots generalizing hart with
  | nil => rfl
  | cons slot slots ih =>
    obtain ⟨hslot, hrest⟩ := List.forall_mem_cons.mp hbase
    have hplace : ∀ offset, (step translate hart (.ld slot.1 slot.2 base)).place translate base
          offset = hart.place translate base offset := by
      intro offset
      exact congrArg (fun word => translate hart.csrs (word + BitVec.ofNat 64 offset))
        (update_of_ne hslot.symm _ _)
    change exec translate (loads slots base) (step translate hart (.ld slot.1 slot.2 base)) = _
    rw [ih hrest]
    simp only [hplace]
    rfl

theorem exec_loads_of_mem (hbase : ∀ slot ∈ slots, slot.1 ≠ base)
    (hregs : (slots.map Prod.fst).Nodup) (hart : Hart Reg Csr)
    {slot : Reg × ℕ} (hslot : slot ∈ slots) :
    (exec translate (loads slots base) hart).regs slot.1 =
      hart.mem (hart.place translate base slot.2) := by
  have hnodup : ((slots.map fun slot => (slot.1,
      hart.mem (hart.place translate base slot.2))).map Prod.fst).Nodup := by
    rw [List.map_map]
    exact hregs
  rw [exec_loads hbase]
  exact applyWrites_of_mem hnodup (slot.1, _) (List.mem_map.mpr ⟨slot, hslot, rfl⟩) hart.regs

/-- Writes to an area, seen through its offsets. -/
theorem applyWrites_place {Index Address Contents : Type*}
    [DecidableEq Index] [DecidableEq Address] {place : Index → Address}
    {area : Set Index} (hplace : Set.InjOn place area) {writes : List (Index × Contents)}
    (hwrites : ∀ write ∈ writes, write.1 ∈ area)
    {index : Index} (hindex : index ∈ area) (store : Address → Contents) :
    applyWrites (writes.map fun write => (place write.1, write.2)) store
      (place index) = applyWrites writes (store ∘ place) index := by
  induction writes generalizing store with
  | nil => rfl
  | cons write writes ih =>
    obtain ⟨hwrite, hrest⟩ := List.forall_mem_cons.mp hwrites
    rw [List.map_cons, applyWrites_cons, applyWrites_cons, ih hrest]
    apply applyWrites_congr
    right
    by_cases heq : index = write.1
    · rw [heq, comp_apply, update_self, update_self]
    · rw [comp_apply, update_of_ne heq, update_of_ne fun hsame =>
        heq (hplace hindex hwrite hsame), comp_apply]

end RxOs.LoadStore
