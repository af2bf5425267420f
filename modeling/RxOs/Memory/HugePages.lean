import RxOs.Memory.Backing

/-!
# Huge pages

`map_with_huge` maps the 2 MiB-aligned middle of a range with leaves of the
second level and the rest with pages of 4 KiB.  What a table means is said by the
walk of the Sv39 hardware.  Whatever holds the translation of a page in a table,
a leaf of the second or of the last level, is its holder.
-/

namespace RxOs.HugePages

open Function Exec PageTable Frames AddressSpace Backing
open Kernel (Proc)

/-! ## Mapping with huge pages -/

def hugePgSize : ℕ := 2097152

def addHugePage (addr : ℕ) : ℕ := addr + hugePgSize

/-- `PageTable::translate_huge` with allocation. -/
def walkHuge (proc : Proc) (va : ℕ) : MemM (Option Place) := do
  if va > maxVa then return none
  else do
    let found ← space proc
    let i := pageNum va 2
    if (found.table.top i).v then return some (.mid i (pageNum va 1))
    else do
      let frame ← alloc
      modifyTable proc fun table => table.hang (.top i) frame
      return some (.mid i (pageNum va 1))

/-- The turn of the loop in `PageTable::map_with_huge` that maps a huge page. -/
def mapHuge (proc : Proc) (va pa : ℕ) (perm : Pte) : MemM Bool := do
  let place ← walkHuge proc va
  match place with
  | none => return false
  | some place => do
    let found ← space proc
    if (found.table.get place).v then throw .remap
    else do
      modifyTable proc fun table => table.set place (perm.withPerm pa)
      return true

/-- The loop of `PageTable::map_with_huge`.  Every turn maps at least one page,
so one turn more than there are pages is enough. -/
def mapHugePages (proc : Proc) (perm : Pte) (last : ℕ) :
    ℕ → ℕ → ℕ → MemM Bool
  | 0, _, _ => return false
  | turns + 1, va, pa =>
    if va = last then return true
    else if va % hugePgSize = 0 ∧ last - va ≥ hugePgSize then do
      let mapped ← mapHuge proc va pa perm
      if mapped then
        mapHugePages proc perm last turns (addHugePage va) (pa + ptEntries)
      else return false
    else do
      let mapped ← mapPage proc va pa perm
      if mapped then
        mapHugePages proc perm last turns (addPage va) (pa + 1)
      else return false

def mapWithHuge (proc : Proc) (va pa size : ℕ) (perm : Pte) : MemM Bool :=
  mapHugePages proc perm (pageRoundUp (va + size))
    ((pageRoundUp (va + size) - pageRoundDown va) / pgSize + 1) (pageRoundDown va) pa

def kernelMap (proc : Proc) (va pa size : ℕ) (perm : Pte) : MemM Unit := do
  let mapped ← mapWithHuge proc va pa size perm
  if mapped then return else throw .mapFailed

/-! ## The hardware -/

/-- Entries that end the walk with a fault: not valid, or writable without being
readable, which is reserved. -/
def faults (pte : Pte) : Bool := !pte.v || (!pte.r && pte.w)

def grants (pte : Pte) : Bool := pte.r || pte.x

/-- Frame and flags that a leaf gives a page; a misaligned leaf faults. -/
def leafFrame (level page : ℕ) (pte : Pte) : Option (ℕ × Pte) :=
  if pte.ppn % ptEntries ^ level = 0 then
    some (pte.ppn + page % ptEntries ^ level, { pte with ppn := 0 })
  else none

/-- The Sv39 walk for the page of an address. -/
def hardwareWalk (table : Table) (va : ℕ) : Option (ℕ × Pte) :=
  let top := table.top (pageNum va 2)
  let mid := table.mid (pageNum va 2) (pageNum va 1)
  let bottom := table.bottom (pageNum va 2) (pageNum va 1) (pageNum va 0)
  if faults top then none
  else if grants top then leafFrame 2 (va / pgSize) top
  else if faults mid then none
  else if grants mid then leafFrame 1 (va / pgSize) mid
  else if faults bottom then none
  else if grants bottom then leafFrame 0 (va / pgSize) bottom
  else none

/-- Addresses of 64 bits whose upper bits repeat bit 38. -/
def Canonical (va : ℕ) : Prop :=
  va < maxVa ∨ usizeSize - maxVa ≤ va ∧ va < usizeSize

instance (va : ℕ) : Decidable (Canonical va) :=
  inferInstanceAs (Decidable (_ ∨ _))

/-- Sv39 translation: the physical address and the flags of the leaf. -/
def sv39 (table : Table) (va : ℕ) : Option (ℕ × Pte) :=
  if Canonical va then
    (hardwareWalk table va).map fun found => (found.1 * pgSize + va % pgSize, found.2)
  else none

/-! ## Holders -/

/-- The leaf, with its level, that holds the translation of a page. -/
def holder (table : Table) (i j k : Index) : Option (ℕ × Pte) :=
  if (table.mid i j).v && (table.mid i j).isLeaf then
    some (1, table.mid i j)
  else if (table.bottom i j k).v then some (0, table.bottom i j k)
  else none

def held (table : Table) (page : ℕ) : Option (ℕ × Pte) :=
  holder table (pageNum (page * pgSize) 2) (pageNum (page * pgSize) 1) (pageNum (page * pgSize) 0)

def resolve (page : ℕ) (found : ℕ × Pte) : Option (ℕ × Pte) :=
  if faults found.2 then none
  else if grants found.2 then leafFrame found.1 page found.2
  else none

theorem pageNum_val (page level : ℕ) :
    (pageNum (page * pgSize) level).val = page / ptEntries ^ level % ptEntries := by
  change page * pgSize / (pgSize * ptEntries ^ level) % ptEntries = _
  rw [Nat.mul_comm page, Nat.mul_div_mul_left _ _ (by decide)]

theorem pageNum_div (va level : ℕ) : pageNum (va / pgSize * pgSize) level = pageNum va level := by
  apply Fin.ext
  rw [pageNum_val, Nat.div_div_eq_div_mul]
  rfl

theorem faults_of_table {pte : Pte} (hleaf : pte.isLeaf = false) :
    faults pte = !pte.v ∧ grants pte = false := by
  simp only [Pte.isLeaf, Bool.or_eq_false_iff] at hleaf
  simp [faults, grants, hleaf.1.1, hleaf.1.2, hleaf.2]

/-- The hardware finds the holder of the page. -/
theorem hardwareWalk_eq {table : Table} (hlayered : table.Layered) (va : ℕ) :
    hardwareWalk table va = (held table (va / pgSize)).bind (resolve (va / pgSize)) := by
  simp only [hardwareWalk, held, pageNum_div, holder]
  generalize pageNum va 2 = i
  generalize pageNum va 1 = j
  generalize pageNum va 0 = k
  by_cases hmid : (table.mid i j).v = true
  · have htop := hlayered.mid_under i j hmid
    obtain ⟨hfault, hgrant⟩ := faults_of_table (hlayered.top_table i htop)
    rw [hfault, hgrant, htop, hmid]
    cases hleaf : (table.mid i j).isLeaf with
    | true =>
      have hbottom : (table.bottom i j k).v = false := by
        by_contra hvalid
        have hunder := hlayered.bottom_under i j k (by simpa using hvalid)
        rw [hleaf] at hunder
        cases hunder.2
      have hfault : faults (table.bottom i j k) = true := by simp [faults, hbottom]
      simp [resolve, hfault]
    | false =>
      obtain ⟨hfault, hgrant⟩ := faults_of_table hleaf
      rw [hfault, hgrant, hmid]
      cases hbottom : (table.bottom i j k).v with
      | true => simp [resolve]
      | false => simp [faults, hbottom]
  · have hbottom : (table.bottom i j k).v = false := by
      by_contra hvalid
      exact hmid (hlayered.bottom_under i j k (by simpa using hvalid)).1
    rw [Bool.not_eq_true] at hmid
    have hfault : faults (table.mid i j) = true := by simp [faults, hmid]
    rw [hmid, hbottom, hfault]
    cases htop : (table.top i).v with
    | true =>
      obtain ⟨hfault, hgrant⟩ := faults_of_table (hlayered.top_table i htop)
      simp [hfault, hgrant, htop]
    | false => simp [faults, htop]

/-! ## Changing a table -/

variable {table : Table} {i j k i' j' k' : Index} {frame : ℕ} {pte : Pte}

theorem holder_of_invalid (hmid : (table.mid i j).v = false)
    (hbottom : (table.bottom i j k).v = false) : holder table i j k = none := by
  simp [holder, hmid, hbottom]

/-- A new table of the second level holds nothing. -/
theorem holder_hang_top (hlayered : table.Layered) (htop : (table.top i).v = false)
    (frame : ℕ) (i' j' k' : Index) :
    holder (table.hang (.top i) frame) i' j' k' = holder table i' j' k' := by
  by_cases hsame : i' = i
  · subst hsame
    have hinvalid := hlayered.mid_invalid htop j'
    have hbottom := hlayered.bottom_invalid hinvalid k'
    rw [holder_of_invalid hinvalid hbottom]
    refine holder_of_invalid ?_ hbottom
    rw [Table.mid_hang_top, if_pos rfl]
    rfl
  · unfold holder
    rw [Table.mid_hang_top, if_neg hsame]
    rfl

/-- A new table of the last level holds nothing. -/
theorem holder_hang_mid (hlayered : table.Layered) (hmid : (table.mid i j).v = false)
    (frame : ℕ) (i' j' k' : Index) :
    holder (table.hang (.mid i j) frame) i' j' k' = holder table i' j' k' := by
  unfold holder
  rw [Table.mid_hang_mid, Table.bottom_hang_mid]
  by_cases hsame : i' = i ∧ j' = j
  · obtain ⟨rfl, rfl⟩ := hsame
    simp [hmid, hlayered.bottom_invalid hmid k', Pte.zero, Pte.withPerm, Pte.isLeaf]
  · rw [if_neg hsame, if_neg hsame]

/-- A valid entry of the last level, under a table, becomes the holder. -/
theorem holder_set_bottom (hmid : (table.mid i j).isLeaf = false) (k : Index)
    (hpte : pte.v = true) (i' j' k' : Index) :
    holder (table.set (.bottom i j k) pte) i' j' k' =
      if i' = i ∧ j' = j ∧ k' = k then some (0, pte) else holder table i' j' k' := by
  unfold holder
  rw [Table.bottom_set_bottom]
  change (if (table.mid i' j').v && (table.mid i' j').isLeaf then
    some (1, table.mid i' j') else _) = _
  by_cases hsame : i' = i ∧ j' = j ∧ k' = k
  · rw [if_pos hsame, if_pos hsame]
    obtain ⟨rfl, rfl, -⟩ := hsame
    simp [hmid, hpte]
  · rw [if_neg hsame, if_neg hsame]

/-- A valid leaf of the second level becomes the holder of 512 pages. -/
theorem holder_set_mid (hpte : pte.v = true ∧ pte.isLeaf = true) (i' j' k' : Index) :
    holder (table.set (.mid i j) pte) i' j' k' =
      if i' = i ∧ j' = j then some (1, pte) else holder table i' j' k' := by
  unfold holder
  rw [Table.mid_set_mid]
  by_cases hsame : i' = i ∧ j' = j
  · rw [if_pos hsame, if_pos hsame, hpte.1, hpte.2]
    rfl
  · rw [if_neg hsame, if_neg hsame]
    rfl

end RxOs.HugePages
