import RxOs.Memory.Backing

/-!
# The store page fault

`uload_page` takes whatever entry the walk finds for the faulting address for
that of a copy-on-write page.  It does what the handler is there for on exactly
the pages that `to_cow_page` has marked, and on addresses for which the walk finds
nothing; on all other entries it panics or makes the page writable.
-/

namespace RxOs.PageFaults

open Function Exec PageTable Frames AddressSpace Backing
open Kernel (Proc)

/-- The address lies in a valid user page that `to_cow_page` has marked. -/
structure Cow (table : Table) (va : ℕ) : Prop where
  walked : table.lookup va = some (slot va)
  valid : (table.leaf va).v = true
  user : (table.leaf va).u = true
  marked : (table.leaf va).rs1 = true

/-- The entry has become writable and maps a page of its own with the same
contents; nothing else has changed, except for the count of the page if it was
shared. -/
def Resolved (proc : Proc) (found : Space) (va : ℕ) (memory next : Memory) : Prop :=
  ∃ frame,
    next.spaces = update memory.spaces proc (some { found with
      table := found.table.set (slot va) { found.table.leaf va with ppn := frame, w := true } }) ∧
    next.bytes frame = memory.bytes (found.table.leaf va).ppn ∧
    next.count frame = 1 ∧
    (∀ other, other ≠ frame → next.bytes other = memory.bytes other) ∧
    (∀ other, other ≠ frame → other ≠ (found.table.leaf va).ppn →
      next.count other = memory.count other) ∧
    (frame ≠ (found.table.leaf va).ppn → 1 < memory.count (found.table.leaf va).ppn ∧
        next.count (found.table.leaf va).ppn = memory.count (found.table.leaf va).ppn - 1) ∧
    next.kernel = memory.kernel

/-- What the handler is there for: it never panics, returns `Ok` on exactly the
copy-on-write pages, which it resolves, and changes nothing otherwise. -/
def Handles (proc : Proc) (found : Space) (va : ℕ) (memory : Memory) : Prop :=
  Ensures (uloadPage proc va) memory (fun done next =>
      done = true ∧ Cow found.table va ∧ Resolved proc found va memory next ∨
      done = false ∧ ¬Cow found.table va ∧ next = memory) (fun _ _ => False)

variable {proc : Proc} {memory : Memory} {found : Space} {va : ℕ}

def Ready (memory : Memory) (frame : ℕ) : Prop :=
  memory.count frame = 1 ∨ 1 < memory.count frame ∧ memory.free ≠ []

theorem get_set (table : Table) (place : Place) (pte : Pte) :
    (table.set place pte).get place = pte := by
  cases place <;> simp [Table.set, Table.get]

def copied (proc : Proc) (found : Space) (place : Place) (memory : Memory)
    (frame : ℕ) (rest : List ℕ) : Memory :=
  let pte := found.table.get place
  let taken := Memory.taken memory frame rest
  Memory.dropped
    { taken with
      bytes := update taken.bytes frame (taken.bytes pte.ppn)
      spaces := update memory.spaces proc (some { found with
        table := found.table.set place (pte.addWriteBit.withPerm frame) }) }
    pte.ppn

/-- Every way that `uload_page` takes. -/
theorem ensures_uloadPage {place : Place} {returned : Bool → Memory → Prop}
    {stopped : Panic → Memory → Prop} (hfound : memory.spaces proc = some found)
    (hlookup : found.table.lookup va = some place) :
    Ensures (uloadPage proc va) memory returned stopped ↔ (¬InRange (found.table.get place).ppn →
        stopped .invalidAddress memory) ∧ (InRange (found.table.get place).ppn →
        (memory.count (found.table.get place).ppn = 1 →
          returned true { memory with
            spaces := update memory.spaces proc (some { found with
              table := found.table.set place (found.table.get place).addWriteBit }) }) ∧
        (memory.count (found.table.get place).ppn ≠ 1 →
          (memory.free = [] → stopped .outOfMemory memory) ∧
          ∀ frame rest, memory.free = frame :: rest →
            returned true (copied proc found place memory frame rest))) := by
  simp only [uloadPage, ensures_bind, ensures_space_found hfound, hlookup, ensures_getCount]
  refine and_congr_right fun _ => forall_congr' fun hin => ?_
  by_cases hcount : memory.count (found.table.get place).ppn = 1
  · simp only [hcount, if_true, ensures_bind, ensures_modifyTable hfound,
      ensures_pure, true_implies, ne_eq, not_true_eq_false, false_implies, and_true]
  · simp only [hcount, if_false, ensures_bind, ensures_alloc, copyPage,
      ensures_modify, false_implies, true_and, ne_eq, not_false_eq_true, true_implies]
    refine and_congr_right fun _ => forall_congr' fun frame =>
      forall_congr' fun rest => forall_congr' fun hfree => ?_
    have hspaces : ∀ bytes, ({ memory.taken frame rest with bytes := bytes } : Memory).spaces proc =
        some found := fun _ => hfound
    rw [ensures_modifyTable (hspaces _), ensures_dealloc]
    simp only [hin, not_true_eq_false, false_implies, true_and, true_implies]
    rfl

theorem Cow.withPerm (hcow : Cow found.table va) (frame : ℕ) :
    (found.table.leaf va).addWriteBit.withPerm frame =
      { found.table.leaf va with ppn := frame, w := true } := by
  simp [Pte.withPerm, Pte.addWriteBit, hcow.valid]

/-- What the copy leaves behind, if the page was shared. -/
theorem resolved_copied (hcow : Cow found.table va) {frame : ℕ} {rest : List ℕ}
    (hfree : ∀ frame ∈ memory.free, memory.count frame = 0) (hhead : memory.free = frame :: rest)
    (hshared : 1 < memory.count (found.table.leaf va).ppn) :
    Resolved proc found va memory (copied proc found (slot va) memory frame rest) := by
  have hzero : memory.count frame = 0 := hfree frame (by rw [hhead]; exact List.mem_cons_self)
  have hother : (found.table.leaf va).ppn ≠ frame := by
    rintro hsame
    rw [hsame, hzero] at hshared
    omega
  have hpte : found.table.get (slot va) = found.table.leaf va := rfl
  refine ⟨frame, ?_, ?_, ?_, ?_, ?_, ?_, rfl⟩
  · rw [← hcow.withPerm frame]
    rfl
  · simp only [copied, Memory.taken, Memory.dropped, hpte,
      update_self, update_of_ne hother]
  · simp only [copied, Memory.taken, Memory.dropped, hpte,
      update_of_ne hother.symm, update_self]
  · intro other haway
    simp only [copied, Memory.taken, Memory.dropped, update_of_ne haway]
  · intro other haway hold
    simp only [copied, Memory.taken, Memory.dropped, hpte,
      update_of_ne haway, update_of_ne hold]
  · intro _
    refine ⟨hshared, ?_⟩
    simp only [copied, Memory.taken, Memory.dropped, hpte,
      update_of_ne hother, update_self]

/-- A copy that resolves the fault was made of a shared page. -/
theorem shared_of_resolved {frame : ℕ} {rest : List ℕ} (hresolved : Resolved proc found va memory
      (copied proc found (slot va) memory frame rest)) :
    1 < memory.count (found.table.leaf va).ppn := by
  obtain ⟨frame', hspaces, -, hcount, -, -, hshared, -⟩ := hresolved
  by_cases hsame : frame' = (found.table.leaf va).ppn
  · -- the page that was taken for the copy would be the old page itself
    have hproc := congrFun hspaces proc
    have htable : found.table.set (slot va) ((found.table.leaf va).addWriteBit.withPerm frame) =
        found.table.set (slot va) { found.table.leaf va with ppn := frame', w := true } := by
      change update _ _ _ proc = _ at hproc
      rw [update_self, update_self] at hproc
      exact congrArg Space.table (Option.some.inj hproc)
    have hframe : frame = frame' := by
      have hget := congrArg (fun table => (table.get (slot va)).ppn) htable
      simp only [get_set] at hget
      exact hget
    have hzero : (copied proc found (slot va) memory frame rest).count frame' = 0 := by
      change update (update memory.count frame 1) (found.table.leaf va).ppn
        (update memory.count frame 1 (found.table.leaf va).ppn - 1) frame' = 0
      rw [← hsame, ← hframe, update_self, update_self]
      rfl
    omega
  · exact (hshared hsame).1

/-- The handler does its work exactly on addresses for which the walk finds no
entry, and on marked user pages that are not shared or for which there is a page
left to copy to. -/
theorem uloadPage_iff (hfound : memory.spaces proc = some found)
    (hfree : ∀ frame ∈ memory.free, memory.count frame = 0) :
    Handles proc found va memory ↔ found.table.lookup va = none ∨
        Cow found.table va ∧ InRange (found.table.leaf va).ppn ∧
          Ready memory (found.table.leaf va).ppn := by
  cases hlookup : found.table.lookup va with
  | none =>
    have hcow : ¬Cow found.table va := by
      intro hcow
      rw [hcow.walked] at hlookup
      cases hlookup
    refine iff_of_true ?_ (.inl rfl)
    rw [Handles, uloadPage, ensures_bind, ensures_space_found hfound, hlookup]
    exact .inr ⟨rfl, hcow, rfl⟩
  | some place =>
    rw [Handles, ensures_uloadPage hfound hlookup]
    have hslot (hcow : Cow found.table va) : place = slot va :=
      Option.some.inj (hlookup.symm.trans hcow.walked)
    constructor
    · rintro ⟨hout, hways⟩
      have hin : InRange (found.table.get place).ppn := by
        by_contra hrange
        exact hout hrange
      obtain ⟨hsingle, hcopy⟩ := hways hin
      by_cases hcount : memory.count (found.table.get place).ppn = 1
      · obtain ⟨-, hcow, -⟩ | ⟨hfailed, -⟩ := hsingle hcount
        · obtain rfl := hslot hcow
          exact .inr ⟨hcow, hin, .inl hcount⟩
        · cases hfailed
      · obtain ⟨hstarved, htaken⟩ := hcopy hcount
        cases hhead : memory.free with
        | nil => exact (hstarved hhead).elim
        | cons frame rest =>
          obtain ⟨-, hcow, hresolved⟩ | ⟨hfailed, -⟩ := htaken frame rest hhead
          · obtain rfl := hslot hcow
            exact .inr ⟨hcow, hin, .inr ⟨shared_of_resolved hresolved, by rw [hhead]; simp⟩⟩
          · cases hfailed
    · rintro (hnone | ⟨hcow, hin, hready⟩)
      · cases hnone
      · obtain rfl := hslot hcow
        refine ⟨fun hout => hout hin, fun _ => ⟨?_, ?_⟩⟩
        · intro hcount
          refine .inl ⟨rfl, hcow, (found.table.leaf va).ppn, rfl, rfl, hcount,
            fun _ _ => rfl, fun _ _ _ => rfl, fun hne => (hne rfl).elim, rfl⟩
        · intro hcount
          obtain ⟨hshared, hsome⟩ := hready.resolve_left hcount
          exact ⟨hsome, fun frame rest hhead =>
            .inl ⟨rfl, hcow, resolved_copied hcow hfree hhead hshared⟩⟩

def markedTable : Table := .single 0 (Pte.permRWXU.withPerm kernelPage).toCowPage

def markedMemory : Memory :=
  { UserCopy.blank with
    count := fun _ => 1
    spaces := fun _ => some ⟨4096, 0, none, markedTable⟩ }

/-- A store to the marked page. -/
theorem uloadPage_iff_marked : Handles 0 ⟨4096, 0, none, markedTable⟩ 8 markedMemory := by
  have hfound : markedMemory.spaces 0 = some ⟨4096, 0, none, markedTable⟩ := rfl
  have hfree : ∀ frame ∈ markedMemory.free, markedMemory.count frame = 0 :=
    nofun
  apply (uloadPage_iff hfound hfree).mpr
  exact .inr ⟨⟨by decide, by decide, by decide, by decide⟩, ⟨by decide, by decide⟩, .inl rfl⟩

/-- A store to an address that is not mapped brings the kernel down. -/
theorem not_uloadPage_unmapped :
    ¬∀ (proc : Proc) (found : Space) (va : ℕ) (memory : Memory), memory.spaces proc = some found →
      (∀ frame ∈ memory.free, memory.count frame = 0) → Handles proc found va memory := by
  intro hall
  have hfound : markedMemory.spaces 0 = some ⟨4096, 0, none, markedTable⟩ := rfl
  have hlookup : markedTable.lookup 4096 = some (slot 4096) := by decide
  have hhandles := hall 0 _ 4096 markedMemory hfound nofun
  apply ((ensures_uloadPage hfound hlookup).mp hhandles).1
  unfold InRange
  decide

end RxOs.PageFaults
