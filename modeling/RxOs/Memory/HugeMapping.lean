import RxOs.Memory.RangeMapping

/-!
# Huge-page mapping is mapping

In every table that calls of the mapping functions build, `map_with_huge` gives
the addresses of its range the translation that `map` would give them.
-/

namespace RxOs.HugeMapping

open Exec PageTable Frames AddressSpace HugePages RangeMapping
open Kernel (Proc)

variable {table : Table}

/-! ## Tables that the functions build -/

/-- The tables that calls of the mapping functions make of an empty one, with
flags from `plain` and `huge`.  The allocator may be in any state at each. -/
inductive Grown (plain huge : Pte → Prop) : Table → Prop
  | empty : Grown plain huge Table.empty
  | map {proc : Proc} {memory next : Memory} {found after : Space}
      {va pa size : ℕ} {perm : Pte} {done : Bool}
      (hgrown : Grown plain huge found.table) (hperm : plain perm)
      (hfound : memory.spaces proc = some found)
      (hrun : AddressSpace.map proc va pa size perm memory = .ok done next)
      (hafter : next.spaces proc = some after) :
      Grown plain huge after.table
  | mapWithHuge {proc : Proc} {memory next : Memory} {found after : Space}
      {va pa size : ℕ} {perm : Pte} {done : Bool}
      (hgrown : Grown plain huge found.table) (hperm : huge perm)
      (hfound : memory.spaces proc = some found)
      (hrun : HugePages.mapWithHuge proc va pa size perm memory = .ok done next)
      (hafter : next.spaces proc = some after) :
      Grown plain huge after.table
  | kernelMap {proc : Proc} {memory next : Memory} {found after : Space}
      {va pa size : ℕ} {perm : Pte} (hgrown : Grown plain huge found.table) (hperm : huge perm)
      (hfound : memory.spaces proc = some found)
      (hrun : HugePages.kernelMap proc va pa size perm memory = .ok () next)
      (hafter : next.spaces proc = some after) :
      Grown plain huge after.table

/-- Tables that are built by calls are layered, and the flags in them are those
of the calls. -/
theorem Grown.layered {plain huge : Pte → Prop} (hhuge : ∀ perm, huge perm → perm.isLeaf = true)
    (hgrown : Grown plain huge table) :
    table.Layered ∧ ∀ page level pte, held table page = some (level, pte) →
      level ≤ 1 ∧ ∃ perm base, (plain perm ∨ huge perm) ∧ pte = perm.withPerm base := by
  have hkeep : ∀ {before after : Table} {perm : Pte},
      (plain perm ∨ huge perm) → Adds before after perm →
      (∀ page level pte, held before page = some (level, pte) →
        level ≤ 1 ∧ ∃ perm base, (plain perm ∨ huge perm) ∧ pte = perm.withPerm base) →
      ∀ page level pte, held after page = some (level, pte) →
        level ≤ 1 ∧ ∃ perm base, (plain perm ∨ huge perm) ∧ pte = perm.withPerm base := by
    intro before after perm hperm hadds hbefore page level pte hheld
    rcases hadds page with hkept | ⟨level', base, hlevel, hadded⟩
    · exact hbefore page level pte (hkept.symm.trans hheld)
    · obtain ⟨rfl, rfl⟩ := Prod.mk.inj (Option.some.inj (hadded.symm.trans hheld))
      exact ⟨hlevel, perm, base, hperm, rfl⟩
  have hstep : ∀ {proc : Proc} {plain' : Prop} {program : MemM Bool}
      {va pages pa : ℕ} {memory next : Memory} {found after : Space}
      {done : Bool} {perm : Pte}, Maps proc plain' program va pages pa perm →
      memory.spaces proc = some found → program memory = .ok done next →
      next.spaces proc = some after → found.table.Layered →
      after.table.Layered ∧ Adds found.table after.table perm := by
    intro proc plain' program va pages pa memory next found after done perm
      hmaps hfound hrun hafter hlayered
    obtain ⟨table, htable, hafter', hadds, -⟩ := hmaps.eq_ok hfound hlayered hrun
    obtain rfl := Option.some.inj (htable.symm.trans hafter)
    exact ⟨hafter', hadds⟩
  induction hgrown with
  | empty => exact ⟨Table.layered_empty, nofun⟩
  | map _ hperm hfound hrun hafter ih =>
    obtain ⟨hlayered, hadds⟩ := hstep (maps_map _ _ _ _ _) hfound hrun hafter ih.1
    exact ⟨hlayered, hkeep (.inl hperm) hadds ih.2⟩
  | mapWithHuge _ hperm hfound hrun hafter ih =>
    obtain ⟨hlayered, hadds⟩ := hstep
      (maps_mapWithHuge _ _ _ _ (hhuge _ hperm)) hfound hrun hafter ih.1
    exact ⟨hlayered, hkeep (.inr hperm) hadds ih.2⟩
  | kernelMap _ hperm hfound hrun hafter ih =>
    obtain ⟨done, middle, hcall, hrest⟩ := bind_eq_ok.mp hrun
    cases done with
    | false => cases hrest
    | true =>
      cases hrest
      obtain ⟨hlayered, hadds⟩ := hstep
        (maps_mapWithHuge _ _ _ _ (hhuge _ hperm)) hfound hcall hafter ih.1
      exact ⟨hlayered, hkeep (.inr hperm) hadds ih.2⟩

theorem range_iff (va size addr : ℕ) :
    (pageRoundDown va ≤ addr ∧ addr < pageRoundUp (va + size)) ↔ va / pgSize ≤ addr / pgSize ∧
        addr / pgSize < va / pgSize + rangePages va size := by
  rw [pageRoundUp_range, pageRoundDown]
  generalize rangePages va size = pages
  change (va / 4096 * 4096 ≤ addr ∧ addr < va / 4096 * 4096 + pages * 4096) ↔
      va / 4096 ≤ addr / 4096 ∧ addr / 4096 < va / 4096 + pages
  omega

theorem pageRoundDown_div (va : ℕ) : pageRoundDown va / pgSize = va / pgSize :=
  Nat.mul_div_cancel _ (by decide)

theorem range_le {va size : ℕ} (hrange : va + size ≤ maxVa) :
    pageRoundDown va + rangePages va size * pgSize ≤ maxVa := by
  rw [← pageRoundUp_range]
  change va + size ≤ 274877906944 at hrange
  change (va + size + 4096 - 1) / 4096 * 4096 ≤ 274877906944
  omega

/-- `map_with_huge` ends when it has mapped its rounded range as `map` would
have, and nothing else, or panics; `map` fails on the same table only if there is
no memory for the tables that it needs. -/
theorem mapWithHuge_eq_map {proc : Proc} {memory : Memory} {found : Space}
    (hgrown : Grown (fun _ => True) (fun perm => perm.isLeaf = true) found.table)
    (hfound : memory.spaces proc = some found) (va pa size : ℕ) (perm : Pte)
    (hperm : perm.r = true ∨ perm.x = true)
    (hpa : pa % hugePgSize = va % hugePgSize) (hrange : va + size ≤ maxVa) :
    Ensures (mapWithHuge proc va (pa / pgSize) size perm) memory
      (fun done next => done = true ∧ ∃ after,
        next.spaces proc = some { found with table := after } ∧
        (∀ addr, pageRoundDown va ≤ addr → addr < pageRoundUp (va + size) →
          sv39 after addr = smallPage perm (pa / pgSize + (addr / pgSize - va / pgSize)) addr) ∧
        (∀ addr, ¬(pageRoundDown va ≤ addr ∧ addr < pageRoundUp (va + size)) →
          sv39 after addr = sv39 found.table addr) ∧
        Ensures (map proc va (pa / pgSize) size perm) memory
          (fun done other => done = true ∧ ∃ small,
            other.spaces proc = some { found with table := small } ∧
            ∀ addr, sv39 small addr = sv39 after addr) (fun cause _ => cause = .outOfMemory))
      (fun cause _ => cause = .outOfMemory ∨ cause = .remap) := by
  obtain ⟨hlayered, -⟩ := hgrown.layered fun _ hleaf => hleaf
  have hleaf : perm.isLeaf = true := by
    rcases hperm with hr | hx
    · simp [Pte.isLeaf, hr]
    · simp [Pte.isLeaf, hx]
  have hend := range_le hrange
  have hpages : (va / pgSize + rangePages va size) * pgSize ≤ maxVa := by
    rw [Nat.add_mul]
    exact hend
  have halign : pa / pgSize % ptEntries = va / pgSize % ptEntries := by
    change pa % 2097152 = va % 2097152 at hpa
    change pa / 4096 % 512 = va / 4096 % 512
    omega
  have hbelow : ∀ {addr}, addr / pgSize < va / pgSize + rangePages va size → addr < maxVa := by
    intro addr hhigh
    have hlt := (Nat.div_lt_iff_lt_mul (show 0 < pgSize by decide)).mp hhigh
    exact lt_of_lt_of_le hlt hpages
  have hinside : ∀ {table}, table.Layered →
      Covers found.table table (va / pgSize) (rangePages va size) (pa / pgSize) perm → ∀ {addr},
      va / pgSize ≤ addr / pgSize ∧ addr / pgSize < va / pgSize + rangePages va size →
      sv39 table addr = smallPage perm (pa / pgSize + (addr / pgSize - va / pgSize)) addr :=
    fun htable hcovers _ hin => hcovers.sv39_inside htable hperm halign (hbelow hin.2) hin.1 hin.2
  refine (maps_mapWithHuge proc va (pa / pgSize) size hleaf memory found hfound
    hlayered).imp ?_ fun _ _ => Or.imp_right And.left
  rintro done next ⟨after, hafter, hlayered', -, hdone⟩
  obtain ⟨rfl, hcovers⟩ := hdone.resolve_right fun hbeyond => absurd hbeyond.2 (Nat.not_lt.mpr hend)
  rw [pageRoundDown_div] at hcovers
  refine ⟨rfl, after, hafter, ?_, ?_, ?_⟩
  · intro addr hlow hhigh
    exact hinside hlayered' hcovers ((range_iff va size addr).mp ⟨hlow, hhigh⟩)
  · intro addr hout
    rw [range_iff] at hout
    exact hcovers.sv39_outside hlayered hlayered' hpages hout
  · refine (maps_map proc va (pa / pgSize) size perm memory found hfound hlayered).imp ?_ ?_
    · rintro done other ⟨small, hsmall, hlayered'', -, hdone⟩
      rcases hdone with ⟨rfl, hcovers'⟩ | ⟨rfl, hbeyond⟩
      · rw [pageRoundDown_div] at hcovers'
        refine ⟨rfl, small, hsmall, ?_⟩
        intro addr
        by_cases hin : va / pgSize ≤ addr / pgSize ∧
            addr / pgSize < va / pgSize + rangePages va size
        · rw [hinside hlayered'' hcovers' hin, hinside hlayered' hcovers hin]
        · rw [hcovers'.sv39_outside hlayered hlayered'' hpages hin,
            hcovers.sv39_outside hlayered hlayered' hpages hin]
      · exact absurd hbeyond (Nat.not_lt.mpr hend)
    · rintro cause last (hcause | ⟨-, htaken⟩)
      · exact hcause
      · obtain ⟨page, hlow, hhigh, -, hheld⟩ := htaken trivial
        rw [pageRoundDown_div] at hlow hhigh
        exact absurd (hcovers.vacant page hlow hhigh) hheld

def bare : Memory :=
  { UserCopy.blank with
    free := [1, 2, 3, 4]
    spaces := fun _ => some ⟨0, 0, none, Table.empty⟩ }

/-- A page before a huge page, the huge page and a page behind it, mapped to
themselves. -/
theorem mapWithHuge_eq_map_bare :
    ∃ next after, mapWithHuge 0 2093056 (2093056 / pgSize) 2105344 Pte.permRWXU bare =
        .ok true next ∧
      next.spaces 0 = some ⟨0, 0, none, after⟩ ∧ sv39 after 2097159 =
        some (2097159, { Pte.permRWXU with v := true }) := by
  have hfound : bare.spaces 0 = some ⟨0, 0, none, Table.empty⟩ := rfl
  have hensures := mapWithHuge_eq_map .empty hfound 2093056 2093056 2105344
    Pte.permRWXU (.inl rfl) rfl (by decide)
  have hreturns : (match mapWithHuge 0 2093056 (2093056 / pgSize) 2105344 Pte.permRWXU bare with
      | .ok _ _ => true
      | .error _ _ => false) = true := by decide +kernel
  cases hrun : mapWithHuge 0 2093056 (2093056 / pgSize) 2105344 Pte.permRWXU bare with
  | error cause next =>
    rw [hrun] at hreturns
    cases hreturns
  | ok done next =>
    obtain ⟨rfl, after, hafter, hinside, -⟩ := hensures.eq_ok hrun
    exact ⟨next, after, rfl, hafter, hinside 2097159 (by decide) (by decide)⟩

end RxOs.HugeMapping
