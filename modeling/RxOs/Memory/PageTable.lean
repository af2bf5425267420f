import Mathlib

/-!
# Page tables

A user page table is a tree of three levels with 512 entries to a table.  The
tables below the root hang under the entries that point at them: `mid i` is the
table under entry `i` of the root and `bottom i j` the table under entry `j` of
`mid i`.  Their frames are recorded in the pointing entries; that no frame is
used twice is proved of the allocator, in `RxOs.Sharing`.
-/

namespace RxOs.PageTable

open Function

def pgSize : ℕ := 4096

/-- Entries of a table, `PGSIZE / 8`. -/
def ptEntries : ℕ := 512

def maxVa : ℕ := 274877906944

def trampoline : ℕ := maxVa - pgSize

def trapframe : ℕ := trampoline - pgSize

/-- `USTACK_BASE`; `USTACK_SIZE` is one page. -/
def ustackBase : ℕ := trapframe - pgSize

/-- The largest `usize` plus one. -/
def usizeSize : ℕ := 18446744073709551616

instance : NeZero ptEntries := ⟨by decide⟩

instance : NeZero pgSize := ⟨by decide⟩

abbrev Index := Fin ptEntries

def pageRoundUp (addr : ℕ) : ℕ := (addr + pgSize - 1) / pgSize * pgSize

/-- `pg_round_down`. -/
def pageRoundDown (addr : ℕ) : ℕ := addr / pgSize * pgSize

def addPage (addr : ℕ) : ℕ := addr + pgSize

def pageNum (va level : ℕ) : Index :=
  Fin.ofNat ptEntries (va / (pgSize * ptEntries ^ level))

/-! ## Entries -/

/-- `PageTableEntry`: a physical page number and ten flags. -/
structure Pte where
  ppn : ℕ
  v : Bool
  r : Bool
  w : Bool
  x : Bool
  u : Bool
  g : Bool
  a : Bool
  d : Bool
  rs1 : Bool
  rs2 : Bool
  deriving DecidableEq

namespace Pte

/-- The entry `0`. -/
def zero : Pte :=
  ⟨0, false, false, false, false, false, false, false, false, false, false⟩

def isLeaf (pte : Pte) : Bool := pte.r || pte.w || pte.x

/-- `write_perm`: the page number with the flags of `perm` and `V`. -/
def withPerm (perm : Pte) (ppn : ℕ) : Pte := { perm with ppn := ppn, v := true }

def toCowPage (pte : Pte) : Pte := { pte with w := false, rs1 := true }

def addWriteBit (pte : Pte) : Pte := { pte with w := true }

/-- The flags `R | X`. -/
def permRX : Pte := { zero with r := true, x := true }

/-- The flags `R | W`. -/
def permRW : Pte := { zero with r := true, w := true }

/-- The flags `R`. -/
def permR : Pte := { zero with r := true }

/-- The flags `R | W | U`. -/
def permRWU : Pte := { zero with r := true, w := true, u := true }

/-- The flags `R | W | X | U`. -/
def permRWXU : Pte := { zero with r := true, w := true, x := true, u := true }

end Pte

/-! ## Tables -/

/-- `PageTable`, from its root on. -/
structure Table where
  top : Index → Pte
  mid : Index → Index → Pte
  bottom : Index → Index → Index → Pte

/-- Where an entry stands in a table. -/
inductive Place
  | top (i : Index)
  | mid (i j : Index)
  | bottom (i j k : Index)
  deriving DecidableEq

def slot (va : ℕ) : Place :=
  .bottom (pageNum va 2) (pageNum va 1) (pageNum va 0)

def vpnCount : ℕ := 134217728

/-- Addresses in different pages have different last-level entries. -/
theorem slot_inj {left right : ℕ} (hleft : left / pgSize < vpnCount)
    (hright : right / pgSize < vpnCount) :
    slot left = slot right ↔ left / pgSize = right / pgSize := by
  have hpage : ∀ va level, (pageNum va level).val =
      va / pgSize / ptEntries ^ level % ptEntries := by
    intro va level
    rw [Nat.div_div_eq_div_mul]
    rfl
  constructor
  · intro hslot
    simp only [slot, Place.bottom.injEq, Fin.ext_iff, hpage] at hslot
    have hentries : ptEntries = 512 := rfl
    have hcount : vpnCount = 134217728 := rfl
    simp only [hentries, pow_zero, pow_one, Nat.div_one, pow_two, ← Nat.div_div_eq_div_mul] at hslot
    generalize left / pgSize = left at *
    generalize right / pgSize = right at *
    omega
  · intro hvpn
    simp only [slot, Place.bottom.injEq, Fin.ext_iff, hpage, hvpn, and_self]

namespace Table

/-- `PageTable::unew`. -/
def empty : Table where
  top := fun _ => Pte.zero
  mid := fun _ _ => Pte.zero
  bottom := fun _ _ _ => Pte.zero

def get (table : Table) : Place → Pte
  | .top i => table.top i
  | .mid i j => table.mid i j
  | .bottom i j k => table.bottom i j k

def set (table : Table) (place : Place) (pte : Pte) : Table :=
  match place with
  | .top i => { table with top := update table.top i pte }
  | .mid i j => { table with mid := update table.mid i (update (table.mid i) j pte) }
  | .bottom i j k =>
    { table with
      bottom := update table.bottom i (update (table.bottom i) j
        (update (table.bottom i j) k pte)) }

/-- Hang a zeroed table, in page `frame`, under an entry. -/
def hang (table : Table) (place : Place) (frame : ℕ) : Table :=
  match place with
  | .top i =>
    { table with
      top := update table.top i (Pte.zero.withPerm frame)
      mid := update table.mid i fun _ => Pte.zero }
  | .mid i j =>
    { table with
      mid := update table.mid i (update (table.mid i) j (Pte.zero.withPerm frame))
      bottom := update table.bottom i (update (table.bottom i) j fun _ => Pte.zero) }
  | .bottom _ _ _ => table

/-- `PageTable::translate` without allocation. -/
def lookup (table : Table) (va : ℕ) : Option Place :=
  let i := pageNum va 2
  let j := pageNum va 1
  if va > maxVa then none
  else if (table.top i).v then
    if (table.top i).isLeaf then some (.top i)
    else if (table.mid i j).v then
      if (table.mid i j).isLeaf then some (.mid i j)
      else some (.bottom i j (pageNum va 0))
    else none
  else none

/-- `PageTable::pgt_translate`: the page number of a valid user page. -/
def pgtTranslate (table : Table) (va : ℕ) : Option ℕ :=
  if va > maxVa then none
  else
    match table.lookup va with
    | none => none
    | some place =>
      if (table.get place).v && (table.get place).u then
        some (table.get place).ppn
      else none

def leaf (table : Table) (va : ℕ) : Pte :=
  table.get (slot va)

/-- The page of a user address: the last-level entry is valid and has the user
bit. -/
def userPage (table : Table) (va : ℕ) : Option ℕ :=
  if va ≤ maxVa ∧ (table.leaf va).v = true ∧ (table.leaf va).u = true then
    some (table.leaf va).ppn
  else none

/-- The tables that the mapping functions make: no leaves in the first level,
and nothing hangs under an entry that is a leaf or not valid. -/
structure Layered (table : Table) : Prop where
  top_table : ∀ i, (table.top i).v = true → (table.top i).isLeaf = false
  mid_under : ∀ i j, (table.mid i j).v = true → (table.top i).v = true
  bottom_under : ∀ i j k, (table.bottom i j k).v = true →
    (table.mid i j).v = true ∧ (table.mid i j).isLeaf = false

/-- The tables that the kernel makes for user processes: entries above the last
level are pointers to tables, and nothing hangs under an entry that is not
valid. -/
structure Formed (table : Table) : Prop where
  top_table : ∀ i, (table.top i).v = true → (table.top i).isLeaf = false
  mid_table : ∀ i j, (table.mid i j).v = true →
    (table.mid i j).isLeaf = false ∧ (table.top i).v = true
  bottom_under : ∀ i j k, (table.bottom i j k).v = true → (table.mid i j).v = true

theorem layered_empty : Layered empty := ⟨nofun, nofun, nofun⟩

theorem formed_empty : Formed empty := ⟨nofun, nofun, nofun⟩

/-- The tables of user processes are those without huge pages. -/
theorem formed_iff {table : Table} : Formed table ↔
    Layered table ∧ ∀ i j, (table.mid i j).v = true → (table.mid i j).isLeaf = false := by
  constructor
  · intro hformed
    have hmid : ∀ i j, _ := fun i j hvalid => (hformed.mid_table i j hvalid).1
    refine ⟨⟨hformed.top_table, fun i j hvalid => (hformed.mid_table i j hvalid).2, ?_⟩, hmid⟩
    intro i j k hvalid
    have hunder := hformed.bottom_under i j k hvalid
    exact ⟨hunder, hmid i j hunder⟩
  · rintro ⟨hlayered, hmid⟩
    exact ⟨hlayered.top_table, fun i j hvalid => ⟨hmid i j hvalid, hlayered.mid_under i j hvalid⟩,
      fun i j k hvalid => (hlayered.bottom_under i j k hvalid).1⟩

/-- In a table of the kernel's making an address leads to its last-level entry
whenever that entry is valid. -/
theorem Formed.lookup_eq {table : Table} (hformed : Formed table) {va : ℕ}
    (hva : va ≤ maxVa) (hvalid : (table.leaf va).v = true) : table.lookup va = some (slot va) := by
  have hmid := hformed.bottom_under _ _ _ hvalid
  obtain ⟨hpointer, htop⟩ := hformed.mid_table _ _ hmid
  simp [lookup, slot, Nat.not_lt.mpr hva, htop, hformed.top_table _ htop, hmid, hpointer]

theorem Formed.lookup_eq_some {table : Table} (hformed : Formed table) {va : ℕ}
    {place : Place} (hlookup : table.lookup va = some place) : va ≤ maxVa ∧ place = slot va := by
  unfold lookup at hlookup
  simp only at hlookup
  split at hlookup
  · cases hlookup
  · next hva =>
      refine ⟨Nat.not_lt.mp hva, ?_⟩
      split at hlookup
      · next htop =>
          rw [hformed.top_table _ htop] at hlookup
          simp only [Bool.false_eq_true, if_false] at hlookup
          split at hlookup
          · next hmid =>
              rw [(hformed.mid_table _ _ hmid).1] at hlookup
              simpa [slot] using hlookup.symm
          · cases hlookup
      · cases hlookup

/-- What `pgt_translate` finds in a table of the kernel's making. -/
theorem Formed.pgtTranslate_eq {table : Table} (hformed : Formed table)
    (va : ℕ) : table.pgtTranslate va = table.userPage va := by
  unfold pgtTranslate userPage
  by_cases hva : va ≤ maxVa
  · rw [if_neg (Nat.not_lt.mpr hva)]
    by_cases hvalid : (table.leaf va).v = true
    · rw [hformed.lookup_eq hva hvalid]
      change (if (table.leaf va).v && (table.leaf va).u then
        some (table.leaf va).ppn else none) = _
      simp [hva, hvalid]
    · rw [if_neg fun h => hvalid h.2.1]
      split
      · rfl
      · next place hlookup =>
          obtain ⟨-, rfl⟩ := hformed.lookup_eq_some hlookup
          change (if (table.leaf va).v && (table.leaf va).u then _ else _) = _
          simp [hvalid]
  · rw [if_pos (Nat.not_le.mp hva), if_neg fun h => hva h.1]

/-! ## Changing a table -/

theorem leaf_congr (table : Table) {left right : ℕ}
    (hleft : left / pgSize < vpnCount) (hright : right / pgSize < vpnCount)
    (hvpn : left / pgSize = right / pgSize) : table.leaf left = table.leaf right := by
  rw [leaf, leaf, (slot_inj hleft hright).mpr hvpn]

theorem update_update_apply {α : Type*} (entries : Index → Index → α) (i j : Index) (entry : α)
    (i' j' : Index) : update entries i (update (entries i) j entry) i' j' =
      if i' = i ∧ j' = j then entry else entries i' j' := by
  by_cases hi : i' = i
  · subst hi
    rw [update_self, update_apply]
    simp
  · rw [update_of_ne hi]
    simp [hi]

variable {table : Table} {i j k : Index} {frame : ℕ} {pte : Pte}

theorem top_hang_top (i' : Index) : (table.hang (.top i) frame).top i' =
    if i' = i then Pte.zero.withPerm frame else table.top i' :=
  update_apply ..

theorem mid_hang_top (i' j' : Index) : (table.hang (.top i) frame).mid i' j' =
    if i' = i then Pte.zero else table.mid i' j' := by
  change update table.mid i (fun _ => Pte.zero) i' j' = _
  rw [update_apply]
  split <;> rfl

theorem mid_hang_mid (i' j' : Index) : (table.hang (.mid i j) frame).mid i' j' =
    if i' = i ∧ j' = j then Pte.zero.withPerm frame else table.mid i' j' :=
  update_update_apply ..

theorem bottom_hang_mid (i' j' k' : Index) : (table.hang (.mid i j) frame).bottom i' j' k' =
    if i' = i ∧ j' = j then Pte.zero else table.bottom i' j' k' := by
  change update table.bottom i (update (table.bottom i) j fun _ => Pte.zero) i' j' k' = _
  rw [update_update_apply]
  split <;> rfl

theorem mid_set_mid (i' j' : Index) : (table.set (.mid i j) pte).mid i' j' =
    if i' = i ∧ j' = j then pte else table.mid i' j' :=
  update_update_apply ..

theorem bottom_set_bottom (i' j' k' : Index) : (table.set (.bottom i j k) pte).bottom i' j' k' =
    if i' = i ∧ j' = j ∧ k' = k then pte else table.bottom i' j' k' := by
  change update table.bottom i (update (table.bottom i) j _) i' j' k' = _
  rw [update_update_apply]
  split
  · next hsame =>
      obtain ⟨rfl, rfl⟩ := hsame
      simp [update_apply]
  · next hne => rw [if_neg fun hsame => hne ⟨hsame.1, hsame.2.1⟩]

/-- Writing a last-level entry changes the entry of its page only. -/
theorem leaf_set (table : Table) (pte : Pte) {va other : ℕ}
    (hva : va / pgSize < vpnCount) (hother : other / pgSize < vpnCount) :
    (table.set (slot va) pte).leaf other =
      if other / pgSize = va / pgSize then pte else table.leaf other := by
  have hslot := slot_inj hother hva
  simp only [slot, Place.bottom.injEq] at hslot
  exact (bottom_set_bottom ..).trans (if_congr hslot rfl rfl)

theorem Layered.bottom_invalid (hlayered : Layered table)
    (hmid : (table.mid i j).v = false) (k : Index) : (table.bottom i j k).v = false := by
  by_contra hvalid
  have hunder := (hlayered.bottom_under i j k (by simpa using hvalid)).1
  rw [hmid] at hunder
  cases hunder

theorem Layered.mid_invalid (hlayered : Layered table)
    (htop : (table.top i).v = false) (j : Index) : (table.mid i j).v = false := by
  by_contra hvalid
  have hunder := hlayered.mid_under i j (by simpa using hvalid)
  rw [htop] at hunder
  cases hunder

theorem Layered.hang_top (hlayered : Layered table) (htop : (table.top i).v = false) (frame : ℕ) :
    Layered (table.hang (.top i) frame) := by
  constructor
  · intro i' hvalid
    rw [top_hang_top] at hvalid ⊢
    split_ifs at hvalid ⊢
    · rfl
    · exact hlayered.top_table i' hvalid
  · intro i' j' hvalid
    rw [mid_hang_top] at hvalid
    rw [top_hang_top]
    split_ifs at hvalid ⊢
    · rfl
    · exact hlayered.mid_under i' j' hvalid
  · intro i' j' k' hvalid
    have hunder := hlayered.bottom_under i' j' k' hvalid
    rw [mid_hang_top, if_neg]
    · exact hunder
    · rintro rfl
      rw [hlayered.mid_invalid htop] at hunder
      cases hunder.1

theorem Layered.hang_mid (hlayered : Layered table) (htop : (table.top i).v = true) (j : Index)
    (frame : ℕ) : Layered (table.hang (.mid i j) frame) := by
  refine ⟨hlayered.top_table, ?_, ?_⟩
  · intro i' j' hvalid
    rw [mid_hang_mid] at hvalid
    split_ifs at hvalid with hsame
    · rw [hsame.1]
      exact htop
    · exact hlayered.mid_under i' j' hvalid
  · intro i' j' k' hvalid
    rw [bottom_hang_mid] at hvalid
    rw [mid_hang_mid]
    split_ifs at hvalid ⊢
    · exact ⟨rfl, rfl⟩
    · exact hlayered.bottom_under i' j' k' hvalid

theorem Layered.set_bottom (hlayered : Layered table) (k : Index)
    (hunder : pte.v = true → (table.mid i j).v = true ∧ (table.mid i j).isLeaf = false) :
    Layered (table.set (.bottom i j k) pte) := by
  refine ⟨hlayered.top_table, hlayered.mid_under, ?_⟩
  intro i' j' k' hvalid
  rw [bottom_set_bottom] at hvalid
  split_ifs at hvalid with hsame
  · obtain ⟨rfl, rfl, -⟩ := hsame
    exact hunder hvalid
  · exact hlayered.bottom_under i' j' k' hvalid

theorem Layered.set_mid (hlayered : Layered table) (htop : (table.top i).v = true)
    (hmid : (table.mid i j).v = false) (pte : Pte) : Layered (table.set (.mid i j) pte) := by
  refine ⟨hlayered.top_table, ?_, ?_⟩
  · intro i' j' hvalid
    rw [mid_set_mid] at hvalid
    split_ifs at hvalid with hsame
    · rw [hsame.1]
      exact htop
    · exact hlayered.mid_under i' j' hvalid
  · intro i' j' k' hvalid
    rw [mid_set_mid, if_neg]
    · exact hlayered.bottom_under i' j' k' hvalid
    · rintro ⟨rfl, rfl⟩
      change (table.bottom _ _ k').v = true at hvalid
      rw [hlayered.bottom_invalid hmid] at hvalid
      cases hvalid

theorem Formed.set (hformed : Formed table) {va : ℕ}
    (hunder : pte.v = true → (table.mid (pageNum va 2) (pageNum va 1)).v = true) :
    Formed (table.set (slot va) pte) := by
  obtain ⟨hlayered, hmid⟩ := formed_iff.mp hformed
  refine formed_iff.mpr ⟨hlayered.set_bottom _ fun hvalid => ?_, hmid⟩
  exact ⟨hunder hvalid, hmid _ _ (hunder hvalid)⟩

theorem Formed.hang_top (hformed : Formed table) (hinvalid : (table.top i).v = false) (frame : ℕ) :
    Formed (table.hang (.top i) frame) := by
  obtain ⟨hlayered, hmid⟩ := formed_iff.mp hformed
  refine formed_iff.mpr ⟨hlayered.hang_top hinvalid frame, fun i' j' => ?_⟩
  rw [mid_hang_top]
  split_ifs
  · exact fun _ => rfl
  · exact hmid i' j'

theorem Formed.hang_mid (hformed : Formed table) (htop : (table.top i).v = true) (frame : ℕ) :
    Formed (table.hang (.mid i j) frame) := by
  obtain ⟨hlayered, hmid⟩ := formed_iff.mp hformed
  refine formed_iff.mpr ⟨hlayered.hang_mid htop j frame, fun i' j' => ?_⟩
  rw [mid_hang_mid]
  split_ifs
  · exact fun _ => rfl
  · exact hmid i' j'

/-- A table with the entry of one page, under tables in pages 1 and 2. -/
def single (va : ℕ) (pte : Pte) : Table :=
  ((empty.hang (.top (pageNum va 2)) 1).hang (.mid (pageNum va 2) (pageNum va 1)) 2).set
    (slot va) pte

theorem formed_single (va : ℕ) (pte : Pte) : Formed (single va pte) := by
  refine ((formed_empty.hang_top rfl 1).hang_mid ?_ 2).set fun _ => ?_
  · rw [top_hang_top, if_pos rfl]
    rfl
  · rw [mid_hang_mid, if_pos ⟨rfl, rfl⟩]
    rfl

end Table

end RxOs.PageTable
