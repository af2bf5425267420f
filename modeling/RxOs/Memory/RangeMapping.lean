import RxOs.Memory.HugePages

/-!
# Mapping a range

What `map` and `map_with_huge` do to a table, page by page: they give holders to
the pages of their range, one after the other, and leave all other pages alone.
With an aligned physical address the hardware makes the same of a huge page and
of the small pages in its place.
-/

namespace RxOs.RangeMapping

open Function Exec PageTable Frames AddressSpace HugePages Walking
open Kernel (Proc)

variable {table : Table} {pte : Pte}

/-! ## Pages of a range -/

theorem pageNum_mid_iff (left right : ℕ) :
    (pageNum (left * pgSize) 2 = pageNum (right * pgSize) 2 ∧
      pageNum (left * pgSize) 1 = pageNum (right * pgSize) 1) ↔
      left % vpnCount / ptEntries = right % vpnCount / ptEntries := by
  have hentries : ptEntries = 512 := rfl
  have hcount : vpnCount = 134217728 := rfl
  simp only [Fin.ext_iff, pageNum_val, pow_two, pow_one, ← Nat.div_div_eq_div_mul, hentries, hcount]
  omega

theorem pageNum_iff (left right : ℕ) :
    (pageNum (left * pgSize) 2 = pageNum (right * pgSize) 2 ∧
      pageNum (left * pgSize) 1 = pageNum (right * pgSize) 1 ∧
      pageNum (left * pgSize) 0 = pageNum (right * pgSize) 0) ↔
      left % vpnCount = right % vpnCount := by
  have hentries : ptEntries = 512 := rfl
  have hcount : vpnCount = 134217728 := rfl
  simp only [Fin.ext_iff, pageNum_val, pow_two, pow_one, pow_zero,
    Nat.div_one, ← Nat.div_div_eq_div_mul, hentries, hcount]
  omega

/-- The pages of a range, vacant before, have got holders with the flags of
`perm` that lead to consecutive frames; no other page is concerned. -/
structure Covers (before after : Table) (first pages pa : ℕ) (perm : Pte) :
    Prop where
  fits : ∀ page, first ≤ page → page < first + pages → page < vpnCount
  outside : ∀ page, ¬(first ≤ page % vpnCount ∧ page % vpnCount < first + pages) →
      held after page = held before page
  vacant : ∀ page, first ≤ page → page < first + pages → held before page = none
  inside : ∀ page, first ≤ page → page < first + pages → ∃ level base, level ≤ 1 ∧
      held after page = some (level, perm.withPerm base) ∧
      base + page % ptEntries ^ level = pa + (page - first)

variable {before middle after : Table} {first pages more pa : ℕ} {perm : Pte}

theorem covers_zero (table : Table) (first pa : ℕ) (perm : Pte) :
    Covers table table first 0 pa perm where
  fits := by omega
  outside := fun _ _ => rfl
  vacant := by omega
  inside := by omega

theorem Covers.outside_of_lt (hcovers : Covers before after first pages pa perm)
    {page : ℕ} (hpage : page < vpnCount) (hout : ¬(first ≤ page ∧ page < first + pages)) :
    held after page = held before page := by
  apply hcovers.outside
  rwa [Nat.mod_eq_of_lt hpage]

/-- Ranges that follow each other. -/
theorem Covers.trans (hfirst : Covers before middle first pages pa perm)
    (hrest : Covers middle after (first + pages) more (pa + pages) perm) :
    Covers before after first (pages + more) pa perm where
  fits := by
    intro page hlow hhigh
    by_cases hpart : page < first + pages
    · exact hfirst.fits page hlow hpart
    · exact hrest.fits page (by omega) (by omega)
  outside := by
    intro page hout
    rw [hrest.outside page (by omega), hfirst.outside page (by omega)]
  vacant := by
    intro page hlow hhigh
    by_cases hpart : page < first + pages
    · exact hfirst.vacant page hlow hpart
    · have hpage := hrest.fits page (by omega) (by omega)
      rw [← hfirst.outside_of_lt hpage (by omega)]
      exact hrest.vacant page (by omega) (by omega)
  inside := by
    intro page hlow hhigh
    by_cases hpart : page < first + pages
    · have hpage := hfirst.fits page hlow hpart
      rw [hrest.outside_of_lt hpage (by omega)]
      exact hfirst.inside page hlow hpart
    · obtain ⟨level, base, hlevel, hheld, hbase⟩ := hrest.inside page (by omega) (by omega)
      exact ⟨level, base, hlevel, hheld, by omega⟩

theorem Covers.congr {other : Table} (hcovers : Covers before after first pages pa perm)
    (hsame : ∀ page, held before page = held other page) :
    Covers other after first pages pa perm where
  fits := hcovers.fits
  outside := fun page hout => (hcovers.outside page hout).trans (hsame page)
  vacant := fun page hlow hhigh => (hsame page).symm.trans (hcovers.vacant page hlow hhigh)
  inside := hcovers.inside

/-- New holders have the flags of `perm`. -/
def Adds (before after : Table) (perm : Pte) : Prop :=
  ∀ page, held after page = held before page ∨ ∃ level base, level ≤ 1 ∧
      held after page = some (level, perm.withPerm base)

theorem Adds.trans (hfirst : Adds before middle perm)
    (hrest : Adds middle after perm) : Adds before after perm := by
  intro page
  rcases hrest page with hsame | hadded
  · rw [hsame]
    exact hfirst page
  · exact .inr hadded

theorem Adds.congr {other : Table} (hadds : Adds before after perm)
    (hsame : ∀ page, held before page = held other page) : Adds other after perm :=
  fun page => (hadds page).imp_left fun hkept => hkept.trans (hsame page)

def Taken (table : Table) (first pages : ℕ) : Prop :=
  ∃ page, first ≤ page ∧ page < first + pages ∧ page < vpnCount ∧ held table page ≠ none

/-- What a program does to the table of `proc`: it maps the pages of a range,
unless memory runs out, there is a valid entry in the way, or the range leaves
the addresses that the table can map.  For a `plain` program, of small pages
only, the entry in the way is the holder of a page of the range. -/
def Maps (proc : Proc) (plain : Prop) (program : MemM Bool) (va pages pa : ℕ) (perm : Pte) : Prop :=
  ∀ memory found, memory.spaces proc = some found → found.table.Layered → Ensures program memory
      (fun done next => ∃ after,
        next.spaces proc = some { found with table := after } ∧
        after.Layered ∧ Adds found.table after perm ∧
        (done = true ∧ Covers found.table after (va / pgSize) pages pa perm ∨
          done = false ∧ maxVa < va + pages * pgSize)) (fun cause _ => cause = .outOfMemory ∨
        cause = .remap ∧ (plain → Taken found.table (va / pgSize) pages))

theorem maps_true (proc : Proc) (plain : Prop) (va pa : ℕ) (perm : Pte) :
    Maps proc plain (return true) va 0 pa perm := by
  intro memory found hfound hlayered
  exact ⟨found.table, hfound, hlayered, fun _ => .inl rfl, .inl ⟨rfl, covers_zero _ _ _ _⟩⟩

/-- One part of a range and the rest of it. -/
theorem Maps.bind {proc : Proc} {plain : Prop} {first rest : MemM Bool} {va pages more pa : ℕ}
    (hfirst : Maps proc plain first va pages pa perm)
    (hrest : Maps proc plain rest (va + pages * pgSize) more (pa + pages) perm) :
    Maps proc plain (do let mapped ← first; if mapped then rest else return false)
      va (pages + more) pa perm := by
  have hnext : (va + pages * pgSize) / pgSize = va / pgSize + pages :=
    Nat.add_mul_div_right _ _ (by decide)
  intro memory found hfound hlayered
  rw [ensures_bind]
  refine (hfirst memory found hfound hlayered).imp ?_ ?_
  · rintro done next ⟨middle, hmiddle, hlayered', hadds, hdone⟩
    rcases hdone with ⟨rfl, hcovers⟩ | ⟨rfl, hrange⟩
    · refine (hrest next _ hmiddle hlayered').imp ?_ ?_
      · rintro done last ⟨after, hafter, hlayered, hadds', hdone⟩
        refine ⟨after, hafter, hlayered, hadds.trans hadds', ?_⟩
        rcases hdone with ⟨rfl, hcovers'⟩ | ⟨rfl, hrange⟩
        · rw [hnext] at hcovers'
          exact .inl ⟨rfl, hcovers.trans hcovers'⟩
        · refine .inr ⟨rfl, ?_⟩
          rw [Nat.add_mul]
          omega
      · rintro cause last (rfl | ⟨rfl, hplain⟩)
        · exact .inl rfl
        · refine .inr ⟨rfl, fun hp => ?_⟩
          obtain ⟨page, hlow, hhigh, hpage, htaken⟩ := hplain hp
          rw [hnext] at hlow hhigh
          rw [hcovers.outside_of_lt hpage (by omega)] at htaken
          exact ⟨page, by omega, by omega, hpage, htaken⟩
    · refine ⟨middle, hmiddle, hlayered', hadds, .inr ⟨rfl, ?_⟩⟩
      rw [Nat.add_mul]
      omega
  · rintro cause last (rfl | ⟨rfl, hplain⟩)
    · exact .inl rfl
    · refine .inr ⟨rfl, fun hp => ?_⟩
      obtain ⟨page, hlow, hhigh, htaken⟩ := hplain hp
      exact ⟨page, hlow, by omega, htaken⟩

/-! ## The walks -/

section Walks

variable {proc : Proc} {memory : Memory} {found : Space} {va : ℕ}

/-- The table of `proc` has got new tables at most. -/
def Prepared (proc : Proc) (found : Space) (next : Memory) (after : Table) : Prop :=
  next.spaces proc = some { found with table := after } ∧ after.Layered ∧
    ∀ page, held after page = held found.table page

theorem survives_prepared (proc : Proc) (va : ℕ) (found : Space) :
    Survives (fun next changed => ∃ after, changed = { found with table := after } ∧
      Prepared proc found next after) proc va fun cause _ => cause = .outOfMemory where
  spaces := by
    rintro _ _ ⟨after, rfl, hprepared⟩
    exact hprepared.1
  layered := by
    rintro _ _ ⟨after, rfl, hprepared⟩
    exact hprepared.2.1
  hang := by
    rintro memory _ place frame rest ⟨after, rfl, -, hlayered, hsame⟩ hwanting -
    refine ⟨_, rfl, update_self .., ?_⟩
    cases hwanting with
    | top hinvalid =>
      exact ⟨hlayered.hang_top hinvalid frame,
        fun page => (holder_hang_top hlayered hinvalid frame ..).trans (hsame page)⟩
    | mid htop hinvalid =>
      exact ⟨hlayered.hang_mid htop _ frame,
        fun page => (holder_hang_mid hlayered hinvalid frame ..).trans (hsame page)⟩
  starved := fun _ _ _ _ _ _ => rfl

theorem ensures_walk (hfound : memory.spaces proc = some found)
    (hlayered : found.table.Layered) (hva : va ≤ maxVa) :
    Ensures (walk proc va) memory (fun place next => ∃ after stop, Prepared proc found next after ∧
        place = some stop ∧ Reaches after va stop) (fun cause _ => cause = .outOfMemory) := by
  refine ((survives_prepared proc va found).ensures_walk
    ⟨found.table, rfl, hfound, hlayered, fun _ => rfl⟩ hva).imp_returned ?_
  rintro place next ⟨stop, _, hplace, ⟨after, rfl, hprepared⟩, hreaches⟩
  exact ⟨after, stop, hprepared, hplace, hreaches⟩

theorem ensures_walkHuge (hfound : memory.spaces proc = some found)
    (hlayered : found.table.Layered) (hva : va ≤ maxVa) :
    Ensures (walkHuge proc va) memory (fun place next => ∃ after, Prepared proc found next after ∧
        (after.top (pageNum va 2)).v = true ∧ place = some (.mid (pageNum va 2) (pageNum va 1)))
      (fun cause _ => cause = .outOfMemory) := by
  have hprepared : Prepared proc found memory found.table := ⟨hfound, hlayered, fun _ => rfl⟩
  rw [walkHuge, if_neg (Nat.not_lt.mpr hva), ensures_bind, ensures_space_found hfound]
  by_cases htop : (found.table.top (pageNum va 2)).v = true
  · rw [if_pos htop]
    exact ⟨found.table, hprepared, htop, rfl⟩
  · rw [if_neg htop]
    apply (survives_prepared proc va found).ensures_hang ⟨_, rfl, hprepared⟩
      (.top (by simpa using htop))
    rintro frame next ⟨after, hafter, hprepared⟩
    obtain rfl := congrArg Space.table hafter
    refine ⟨_, hprepared, ?_, rfl⟩
    rw [Table.top_hang_top, if_pos rfl]
    rfl

end Walks

/-! ## One turn -/

section Turns

/-- A new leaf of some level covers its pages. -/
theorem covers_of_held {level : ℕ} (hlevel : level ≤ 1) (hfirst : first % ptEntries ^ level = 0)
    (hfits : first + ptEntries ^ level ≤ vpnCount)
    (hvacant : ∀ page, first ≤ page → page < first + ptEntries ^ level → held before page = none)
    (hheld : ∀ page, held after page =
      if first ≤ page % vpnCount ∧ page % vpnCount < first + ptEntries ^ level then
        some (level, perm.withPerm pa)
      else held before page) :
    Covers before after first (ptEntries ^ level) pa perm ∧ Adds before after perm := by
  constructor
  · constructor
    · intro page _ hhigh
      exact lt_of_lt_of_le hhigh hfits
    · intro page hout
      rw [hheld, if_neg hout]
    · exact hvacant
    · intro page hlow hhigh
      refine ⟨level, pa, hlevel, ?_, ?_⟩
      · rw [hheld, Nat.mod_eq_of_lt (lt_of_lt_of_le hhigh hfits), if_pos ⟨hlow, hhigh⟩]
      · obtain ⟨offset, rfl⟩ := Nat.exists_eq_add_of_le hlow
        rw [Nat.add_mod, hfirst, Nat.zero_add, Nat.mod_mod,
          Nat.mod_eq_of_lt (by omega), Nat.add_sub_cancel_left]
  · intro page
    rw [hheld]
    split
    · exact .inr ⟨level, pa, hlevel, rfl⟩
    · exact .inl rfl

variable {proc : Proc} {va : ℕ}

theorem taken_of_holder {pages : ℕ} (hpages : 0 < pages) (hpage : va / pgSize < vpnCount)
    (hheld : holder table (pageNum va 2) (pageNum va 1) (pageNum va 0) ≠ none) :
    Taken table (va / pgSize) pages := by
  refine ⟨va / pgSize, le_rfl, by omega, hpage, ?_⟩
  rwa [held, pageNum_div, pageNum_div, pageNum_div]

theorem Taken.congr {other : Table} (htaken : Taken table first pages)
    (hsame : ∀ page, held table page = held other page) : Taken other first pages := by
  obtain ⟨page, hlow, hhigh, hpage, hheld⟩ := htaken
  exact ⟨page, hlow, hhigh, hpage, by rwa [← hsame]⟩

/-- Writing an entry, if it is vacant. -/
theorem ensures_enter {next : Memory} {found : Space} {place : Place}
    {pte : Pte} {returned : Bool → Memory → Prop} {stopped : Panic → Memory → Prop}
    (hfound : next.spaces proc = some found)
    (hvalid : (found.table.get place).v = true → stopped .remap next)
    (hvacant : (found.table.get place).v = false → ∀ last, last.spaces proc =
        some { found with table := found.table.set place pte } →
          returned true last) :
    Ensures (do
      let found ← space proc
      if (found.table.get place).v then throw .remap
      else do
        modifyTable proc fun table => table.set place pte
        return true) next returned stopped := by
  rw [ensures_bind, ensures_space_found hfound, ensures_ite]
  constructor
  · exact hvalid
  · intro hinvalid
    rw [ensures_bind, ensures_modifyTable hfound]
    exact hvacant (by simpa using hinvalid) _ (update_self ..)

/-- The pages of which the entry for an address is the holder. -/
theorem held_set_bottom (hlayered : table.Layered)
    (hmid : (table.mid (pageNum va 2) (pageNum va 1)).v = true ∧
      (table.mid (pageNum va 2) (pageNum va 1)).isLeaf = false)
    (hpte : pte.v = true) (hfits : va / pgSize + ptEntries ^ 0 ≤ vpnCount) :
    (table.set (slot va) pte).Layered ∧ ∀ page, held (table.set (slot va) pte) page =
        if va / pgSize ≤ page % vpnCount ∧
            page % vpnCount < va / pgSize + ptEntries ^ 0 then some (0, pte)
        else held table page := by
  refine ⟨hlayered.set_bottom _ fun _ => hmid, fun page => ?_⟩
  have hiff := pageNum_iff page (va / pgSize)
  simp only [pageNum_div] at hiff
  refine (holder_set_bottom hmid.2 _ hpte ..).trans (if_congr (hiff.trans ?_) rfl rfl)
  rw [pow_zero] at hfits ⊢
  rw [Nat.mod_eq_of_lt hfits]
  omega

/-- The pages of which the huge entry for an aligned address is the holder. -/
theorem held_set_mid (hlayered : table.Layered) (htop : (table.top (pageNum va 2)).v = true)
    (hmid : (table.mid (pageNum va 2) (pageNum va 1)).v = false)
    (hpte : pte.v = true ∧ pte.isLeaf = true) (hva : va / pgSize % ptEntries ^ 1 = 0)
    (hfits : va / pgSize + ptEntries ^ 1 ≤ vpnCount) :
    (table.set (.mid (pageNum va 2) (pageNum va 1)) pte).Layered ∧
      ∀ page, held (table.set (.mid (pageNum va 2) (pageNum va 1)) pte) page =
        if va / pgSize ≤ page % vpnCount ∧
            page % vpnCount < va / pgSize + ptEntries ^ 1 then some (1, pte)
        else held table page := by
  refine ⟨hlayered.set_mid htop hmid pte, fun page => ?_⟩
  have hiff := pageNum_mid_iff page (va / pgSize)
  simp only [pageNum_div] at hiff
  refine (holder_set_mid hpte ..).trans (if_congr (hiff.trans ?_) rfl rfl)
  rw [pow_one, show ptEntries = 512 from rfl] at hva hfits ⊢
  rw [Nat.mod_eq_of_lt (show va / pgSize < vpnCount by omega)]
  omega

theorem page_lt (hva : va ≤ maxVa) : va / pgSize + ptEntries ≤ vpnCount := by
  have hle := Nat.div_le_div_right hva (c := pgSize)
  have hmax : maxVa / pgSize = 67108864 := rfl
  have hcount : vpnCount = 134217728 := rfl
  have hentries : ptEntries = 512 := rfl
  omega

theorem maps_mapPage (proc : Proc) (plain : Prop) (va pa : ℕ) (perm : Pte) :
    Maps proc plain (mapPage proc va pa perm) va 1 pa perm := by
  intro memory found hfound hlayered
  by_cases hrange : va ≤ maxVa
  · have hfits : va / pgSize + 1 ≤ vpnCount :=
      le_trans (Nat.add_le_add_left (by decide) _) (page_lt hrange)
    rw [mapPage, ensures_bind]
    refine (ensures_walk hfound hlayered hrange).imp ?_ fun _ _ => .inl
    rintro place next ⟨middle, stop, ⟨hmiddle, hlayered', hsame⟩, rfl, hreaches⟩
    apply ensures_enter hmiddle
    · intro hvalid
      refine .inr ⟨rfl, fun _ => Taken.congr ?_ hsame⟩
      apply taken_of_holder Nat.one_pos hfits
      obtain ⟨hmid, ⟨rfl, hleaf⟩ | ⟨rfl, hleaf⟩⟩ := hreaches
      · change (middle.bottom _ _ _).v = true at hvalid
        simp [holder, hleaf, hvalid]
      · simp [holder, hmid, hleaf]
    · intro hvacant last hlast
      obtain ⟨hmid, ⟨rfl, hleaf⟩ | ⟨rfl, hleaf⟩⟩ := hreaches
      · change (middle.bottom _ _ _).v = false at hvacant
        have hpte : (perm.withPerm pa).v = true := rfl
        obtain ⟨hafter, hheld⟩ := held_set_bottom hlayered' ⟨hmid, hleaf⟩ hpte hfits
        have hnone : ∀ page, va / pgSize ≤ page →
            page < va / pgSize + ptEntries ^ 0 → held middle page = none := by
          intro page hlow hhigh
          have hself : page = va / pgSize := by
            rw [pow_zero] at hhigh
            omega
          rw [hself, held]
          simp only [pageNum_div]
          simp [holder, hleaf, hvacant]
        obtain ⟨hcovers, hadds⟩ := covers_of_held (Nat.zero_le 1) (Nat.mod_one _) hfits hnone hheld
        exact ⟨_, hlast, hafter, hadds.congr hsame, .inl ⟨rfl, hcovers.congr hsame⟩⟩
      · change (middle.mid _ _).v = false at hvacant
        rw [hmid] at hvacant
        cases hvacant
  · have hwalk : walk proc va = return none := by rw [walk, if_pos (Nat.not_le.mp hrange)]
    rw [mapPage, hwalk]
    exact ⟨found.table, hfound, hlayered, fun _ => .inl rfl, .inr ⟨rfl, by omega⟩⟩

theorem maps_mapHuge (pa : ℕ) (hva : va % hugePgSize = 0) (hperm : perm.isLeaf = true) :
    Maps proc False (mapHuge proc va pa perm) va ptEntries pa perm := by
  intro memory found hfound hlayered
  by_cases hrange : va ≤ maxVa
  · have hfits : va / pgSize + ptEntries ^ 1 ≤ vpnCount := by
      rw [pow_one]
      exact page_lt hrange
    have halign : va / pgSize % ptEntries ^ 1 = 0 := by
      change va % 2097152 = 0 at hva
      change va / 4096 % 512 = 0
      omega
    rw [mapHuge, ensures_bind]
    refine (ensures_walkHuge hfound hlayered hrange).imp ?_ fun _ _ => .inl
    rintro place next ⟨middle, ⟨hmiddle, hlayered', hsame⟩, htop, rfl⟩
    apply ensures_enter hmiddle
    · intro hvalid
      exact .inr ⟨rfl, False.elim⟩
    · intro hvacant last hlast
      change (middle.mid _ _).v = false at hvacant
      have hpte : (perm.withPerm pa).v = true ∧ (perm.withPerm pa).isLeaf = true := ⟨rfl, hperm⟩
      obtain ⟨hafter, hheld⟩ := held_set_mid hlayered' htop hvacant hpte halign hfits
      have hnone : ∀ page, va / pgSize ≤ page →
          page < va / pgSize + ptEntries ^ 1 → held middle page = none := by
        intro page hlow hhigh
        have hsame := (pageNum_mid_iff page (va / pgSize)).mpr (by
          change va / pgSize + 512 ≤ 134217728 at hfits
          change va / pgSize % 512 = 0 at halign
          change page < va / pgSize + 512 at hhigh
          change page % 134217728 / 512 = va / pgSize % 134217728 / 512
          omega)
        rw [pageNum_div, pageNum_div] at hsame
        rw [held, hsame.1, hsame.2]
        exact holder_of_invalid hvacant (hlayered'.bottom_invalid hvacant _)
      obtain ⟨hcovers, hadds⟩ := covers_of_held le_rfl halign hfits hnone hheld
      rw [pow_one] at hcovers
      exact ⟨_, hlast, hafter, hadds.congr hsame, .inl ⟨rfl, hcovers.congr hsame⟩⟩
  · have hwalk : walkHuge proc va = return none := by rw [walkHuge, if_pos (Nat.not_le.mp hrange)]
    rw [mapHuge, hwalk]
    exact ⟨found.table, hfound, hlayered, fun _ => .inl rfl, .inr ⟨rfl, by omega⟩⟩

end Turns

/-! ## The loops -/

theorem maps_mapPages (proc : Proc) (perm : Pte) (pages va pa : ℕ) :
    Maps proc True (mapPages proc perm pages va pa) va pages pa perm := by
  induction pages generalizing va pa with
  | zero => exact maps_true proc True va pa perm
  | succ pages ih =>
    rw [mapPages, Nat.add_comm pages]
    apply (maps_mapPage proc True va pa perm).bind
    rw [Nat.one_mul]
    exact ih (addPage va) (pa + 1)

/-- The loop ends when it has covered the range. -/
theorem maps_mapHugePages (proc : Proc) (hperm : perm.isLeaf = true)
    {turns pages va pa last : ℕ} (hturns : pages < turns) (hlast : last = va + pages * pgSize) :
    Maps proc False (mapHugePages proc perm last turns va pa) va pages pa
      perm := by
  induction turns generalizing pages va pa with
  | zero => omega
  | succ turns ih =>
    have hpos : 0 < pgSize := by decide
    rw [mapHugePages]
    cases pages with
    | zero =>
      rw [if_pos (by omega)]
      exact maps_true proc False va pa perm
    | succ pages =>
      rw [if_neg (by rw [hlast, Nat.succ_mul]; omega)]
      split
      · next hhuge =>
          have hsize : hugePgSize = ptEntries * pgSize := rfl
          obtain ⟨rest, hrest⟩ : ∃ rest, pages + 1 = ptEntries + rest := by
            apply Nat.exists_eq_add_of_le
            have hlen : ptEntries * pgSize ≤ (pages + 1) * pgSize := by omega
            exact Nat.le_of_mul_le_mul_right hlen hpos
          have hentries : 0 < ptEntries := by decide
          rw [hrest]
          apply (maps_mapHuge pa hhuge.1 hperm).bind
          rw [← hsize]
          apply ih (by omega)
          rw [hlast, hrest, Nat.add_mul, addHugePage, hsize]
          omega
      · rw [Nat.add_comm pages]
        apply (maps_mapPage proc False va pa perm).bind
        rw [Nat.one_mul]
        apply ih (by omega)
        rw [hlast, Nat.succ_mul, addPage]
        omega

def rangePages (va size : ℕ) : ℕ :=
  (pageRoundUp (va + size) - pageRoundDown va) / pgSize

theorem pageRoundUp_range (va size : ℕ) :
    pageRoundUp (va + size) = pageRoundDown va + rangePages va size * pgSize := by
  change (va + size + 4096 - 1) / 4096 * 4096 = va / 4096 * 4096 +
    ((va + size + 4096 - 1) / 4096 * 4096 - va / 4096 * 4096) / 4096 * 4096
  omega

theorem maps_map (proc : Proc) (va pa size : ℕ) (perm : Pte) :
    Maps proc True (map proc va pa size perm) (pageRoundDown va) (rangePages va size) pa perm :=
  maps_mapPages proc perm _ _ _

theorem maps_mapWithHuge (proc : Proc) (va pa size : ℕ) (hperm : perm.isLeaf = true) :
    Maps proc False (mapWithHuge proc va pa size perm) (pageRoundDown va)
      (rangePages va size) pa perm :=
  maps_mapHugePages proc hperm (Nat.lt_succ_self _) (pageRoundUp_range va size)

theorem Maps.eq_ok {proc : Proc} {plain : Prop} {program : MemM Bool}
    {va pages pa : ℕ} {memory next : Memory} {found : Space} {done : Bool}
    (hmaps : Maps proc plain program va pages pa perm) (hfound : memory.spaces proc = some found)
    (hlayered : found.table.Layered) (hrun : program memory = .ok done next) :
    ∃ after, next.spaces proc = some { found with table := after } ∧
      after.Layered ∧ Adds found.table after perm ∧
      (done = true ∧ Covers found.table after (va / pgSize) pages pa perm ∨
        done = false ∧ maxVa < va + pages * pgSize) :=
  (hmaps memory found hfound hlayered).eq_ok hrun

/-! ## What the hardware makes of the two mappings -/

def smallPage (perm : Pte) (frame va : ℕ) : Option (ℕ × Pte) :=
  if !perm.r && perm.w then none
  else some (frame * pgSize + va % pgSize, { perm with ppn := 0, v := true })

/-- A leaf of either level whose frame is aligned. -/
theorem resolve_withPerm {level base page : ℕ} (hperm : perm.r = true ∨ perm.x = true)
    (hbase : base % ptEntries ^ level = 0) :
    resolve page (level, perm.withPerm base) =
      if !perm.r && perm.w then none
      else some (base + page % ptEntries ^ level, { perm with ppn := 0, v := true }) := by
  have hgrants : grants (perm.withPerm base) = true := by simpa [grants, Pte.withPerm] using hperm
  have hfaults : faults (perm.withPerm base) = (!perm.r && perm.w) := rfl
  have hppn : (perm.withPerm base).ppn % ptEntries ^ level = 0 := hbase
  simp only [resolve, hgrants, hfaults, if_true, leafFrame, if_pos hppn]
  rfl

/-- On a range that is covered with an aligned physical address, small and huge
pages translate alike. -/
theorem Covers.sv39_inside {va : ℕ} (hcovers : Covers before after first pages pa perm)
    (hlayered : after.Layered) (hperm : perm.r = true ∨ perm.x = true)
    (halign : pa % ptEntries = first % ptEntries) (hva : va < maxVa)
    (hlow : first ≤ va / pgSize) (hhigh : va / pgSize < first + pages) :
    sv39 after va = smallPage perm (pa + (va / pgSize - first)) va := by
  obtain ⟨level, base, hlevel, hheld, hbase⟩ := hcovers.inside (va / pgSize) hlow hhigh
  have haligned : base % ptEntries ^ level = 0 := by
    interval_cases level
    · exact Nat.mod_one _
    · rw [pow_one] at hbase ⊢
      rw [show ptEntries = 512 from rfl] at hbase halign ⊢
      omega
  rw [sv39, if_pos (.inl hva), hardwareWalk_eq hlayered, hheld,
    Option.bind_some, resolve_withPerm hperm haligned, hbase, smallPage]
  split <;> rfl

/-- Outside of the range nothing changes. -/
theorem Covers.sv39_outside {va : ℕ} (hcovers : Covers before after first pages pa perm)
    (hbefore : before.Layered) (hafter : after.Layered) (hrange : (first + pages) * pgSize ≤ maxVa)
    (hout : ¬(first ≤ va / pgSize ∧ va / pgSize < first + pages)) :
    sv39 after va = sv39 before va := by
  unfold sv39
  split
  · next hcanonical =>
      rw [hardwareWalk_eq hafter, hardwareWalk_eq hbefore, hcovers.outside]
      change (first + pages) * 4096 ≤ 274877906944 at hrange
      change va < 274877906944 ∨ 18446744073709551616 - 274877906944 ≤ va ∧
          va < 18446744073709551616 at hcanonical
      change ¬(first ≤ va / 4096 ∧ va / 4096 < first + pages) at hout
      change ¬(first ≤ va / 4096 % 134217728 ∧ va / 4096 % 134217728 < first + pages)
      omega
  · rfl

end RxOs.RangeMapping
