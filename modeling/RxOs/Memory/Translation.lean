import RxOs.Memory.HugeMapping

/-!
# Software and hardware translation

`pgt_translate` looks for the leaf of an address as the hardware does, but takes
the page number of the leaf for that of the page whatever the level.  In a table
of the mapping functions it agrees with the hardware on all small pages and on
the first page of an aligned huge page, and nowhere else on huge pages.
-/

namespace RxOs.Translation

open Exec PageTable Frames HugePages RangeMapping HugeMapping

def UserPerm (perm : Pte) : Prop :=
  perm.u = true ∧ (perm.r = true ∨ perm.x = true) ∧ (perm.w = true → perm.r = true)

theorem UserPerm.isLeaf {perm : Pte} (hperm : UserPerm perm) : perm.isLeaf = true := by
  obtain ⟨-, hr | hx, -⟩ := hperm
  · simp [Pte.isLeaf, hr]
  · simp [Pte.isLeaf, hx]

def userPageOf (found : ℕ × Pte) : Option ℕ :=
  if found.2.u then some (found.1 / pgSize) else none

/-- `pgt_translate` and the Sv39 walk give an address the same page. -/
def Agrees (table : Table) (va : ℕ) : Prop :=
  table.pgtTranslate va = (sv39 table va).bind userPageOf

variable {table : Table} {va : ℕ}

/-- `pgt_translate` finds the holder of the page. -/
theorem pgtTranslate_eq (hlayered : table.Layered) (hva : va < maxVa) :
    table.pgtTranslate va = (held table (va / pgSize)).bind fun found =>
      if found.2.v && found.2.u then some found.2.ppn else none := by
  simp only [Table.pgtTranslate, Table.lookup, held, pageNum_div, holder,
    if_neg (Nat.not_lt.mpr hva.le)]
  generalize pageNum va 2 = i
  generalize pageNum va 1 = j
  generalize pageNum va 0 = k
  cases htop : (table.top i).v with
  | false =>
    have hmid := hlayered.mid_invalid htop j
    simp [hmid, hlayered.bottom_invalid hmid k]
  | true =>
    rw [hlayered.top_table i htop]
    cases hmid : (table.mid i j).v with
    | false => simp [hlayered.bottom_invalid hmid k]
    | true =>
      cases hleaf : (table.mid i j).isLeaf with
      | true => simp [Table.get, hmid]
      | false =>
        cases hbottom : (table.bottom i j k).v with
        | _ => simp [Table.get, hbottom]

/-- The page of a user leaf, in hardware. -/
theorem userPageOf_resolve {perm : Pte} (hperm : UserPerm perm) (level base : ℕ) :
    ((resolve (va / pgSize) (level, perm.withPerm base)).map fun found =>
      (found.1 * pgSize + va % pgSize, found.2)).bind userPageOf =
      if base % ptEntries ^ level = 0 then
        some (base + va / pgSize % ptEntries ^ level)
      else none := by
  obtain ⟨huser, hgrant, hlegal⟩ := hperm
  by_cases hbase : base % ptEntries ^ level = 0
  · have hwrite : (!perm.r && perm.w) = false := by
      cases hw : perm.w with
      | false => simp
      | true => simp [hlegal hw]
    have hdiv : ∀ frame, (frame * pgSize + va % pgSize) / pgSize = frame := by
      intro frame
      change (frame * 4096 + va % 4096) / 4096 = frame
      omega
    rw [resolve_withPerm hgrant hbase, hwrite, if_pos hbase]
    simp [userPageOf, huser, hdiv]
  · have hppn : ¬(perm.withPerm base).ppn % ptEntries ^ level = 0 := hbase
    rw [if_neg hbase, resolve]
    simp only [leafFrame, if_neg hppn]
    split
    · rfl
    · split <;> rfl

/-- Software and hardware agree on an address exactly if its leaf is no huge
page, or an aligned one of which the address lies in the first page. -/
theorem agrees_iff (hgrown : Grown UserPerm UserPerm table) (hva : va < maxVa) :
    Agrees table va ↔ ∀ leaf, held table (va / pgSize) = some (1, leaf) →
      leaf.ppn % ptEntries = 0 ∧ va / pgSize % ptEntries = 0 := by
  obtain ⟨hlayered, hflags⟩ := hgrown.layered fun _ hperm => hperm.isLeaf
  rw [Agrees, pgtTranslate_eq hlayered hva, sv39, if_pos (.inl hva), hardwareWalk_eq hlayered]
  cases hheld : held table (va / pgSize) with
  | none => simp
  | some found =>
    obtain ⟨level, pte⟩ := found
    obtain ⟨hlevel, perm, base, hperm, rfl⟩ := hflags _ _ _ hheld
    have huser : UserPerm perm := hperm.elim id id
    have hsoft : ((perm.withPerm base).v && (perm.withPerm base).u) = true := huser.1
    simp only [Option.bind_some, hsoft, if_true, userPageOf_resolve huser level base]
    change some base = _ ↔ _
    interval_cases level
    · simp [Nat.mod_one]
    · simp only [pow_one, Option.some.injEq, Prod.mk.injEq, true_and, forall_eq']
      change _ ↔ base % ptEntries = 0 ∧ _
      split
      · next hbase => simp [hbase]
      · next hbase => simp [hbase]

/-- The table in which `kernel_map` has mapped one huge page of the user's. -/
def hugeTable : Table :=
  match kernelMap 0 0 0 hugePgSize Pte.permRWXU bare with
  | .ok _ next => (next.spaces 0).elim Table.empty Space.table
  | .error _ _ => Table.empty

theorem grown_hugeTable : Grown UserPerm UserPerm hugeTable := by
  unfold hugeTable
  cases hrun : kernelMap 0 0 0 hugePgSize Pte.permRWXU bare with
  | error cause next => exact .empty
  | ok done next =>
    change Grown _ _ ((next.spaces 0).elim Table.empty Space.table)
    cases hafter : next.spaces 0 with
    | none => exact .empty
    | some after =>
      have hfound : bare.spaces 0 = some ⟨0, 0, none, Table.empty⟩ := rfl
      have hperm : UserPerm Pte.permRWXU := ⟨rfl, .inl rfl, fun _ => rfl⟩
      exact .kernelMap .empty hperm hfound hrun hafter

theorem held_hugeTable :
    held hugeTable 0 = some (1, Pte.permRWXU.withPerm 0) ∧
      held hugeTable 1 = some (1, Pte.permRWXU.withPerm 0) := by decide +kernel

/-- The first page of a huge page. -/
theorem agrees_iff_first : Agrees hugeTable 5 := by
  apply (agrees_iff grown_hugeTable (by decide)).mpr
  intro leaf hleaf
  obtain rfl : Pte.permRWXU.withPerm 0 = leaf :=
    congrArg Prod.snd (Option.some.inj (held_hugeTable.1.symm.trans hleaf))
  exact ⟨rfl, rfl⟩

/-- In the second page of a huge page `pgt_translate` finds the first. -/
theorem not_agrees_second :
    ¬∀ table, Grown UserPerm UserPerm table → ∀ va < maxVa, Agrees table va := by
  intro hall
  have hagrees := hall hugeTable grown_hugeTable 4096 (by decide)
  revert hagrees
  unfold Agrees
  decide +kernel

end RxOs.Translation
