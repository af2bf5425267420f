import RxOs.Core.Stock
import RxOs.Memory.Releasing
import RxOs.Memory.Walking

/-!
# Pages of one address space

While an address space shares no page with anyone, each of its pages comes from
the free list and goes back there.  The specifications say what the functions on
page tables do with its pages and its entries, and that nothing stops them but a
free list that has run dry.
-/

namespace RxOs.Backing

open Function Exec Stock PageTable Frames AddressSpace Holdings Releasing Walking
open Kernel (Proc)

/-! ## Pages and their counts -/

/-- The pages of `total` are free, or held and counted once. -/
structure Backed {Holder : Type} (total : Finset ℕ) (memory : Memory)
    (held : Holder → Option ℕ) : Prop where
  stocked : Stocked total memory.free held
  counted : ∀ holder frame, held holder = some frame → memory.count frame = 1
  ranged : ∀ frame ∈ total, InRange frame

section Backed

variable {Holder : Type} {total : Finset ℕ} {memory next : Memory}
variable {held : Holder → Option ℕ} {holder : Holder} {frame : ℕ}
variable {rest : List ℕ}

theorem Backed.congr (hbacked : Backed total memory held)
    (hfree : next.free = memory.free) (hcount : next.count = memory.count) :
    Backed total next held where
  stocked := by
    rw [hfree]
    exact hbacked.stocked
  counted := by
    rw [hcount]
    exact hbacked.counted
  ranged := hbacked.ranged

theorem Backed.inRange (hbacked : Backed total memory held)
    (hheld : held holder = some frame) : InRange frame :=
  hbacked.ranged frame (hbacked.stocked.mem_of_held hheld)

variable [DecidableEq Holder]

theorem Backed.take (hbacked : Backed total memory held)
    (hfree : memory.free = frame :: rest) (hnone : held holder = none) :
    Backed total (Memory.taken memory frame rest) (update held holder (some frame)) := by
  have hstocked : Stocked total (frame :: rest) held := by
    rw [← hfree]
    exact hbacked.stocked
  refine ⟨hstocked.take hnone, ?_, hbacked.ranged⟩
  intro each page hheld
  change update memory.count frame 1 page = 1
  by_cases hpage : page = frame
  · rw [hpage, update_self]
  · rw [update_of_ne hpage]
    refine hbacked.counted each page ?_
    rwa [update_of_ne] at hheld
    rintro rfl
    rw [update_self] at hheld
    exact hpage (Option.some.inj hheld).symm

theorem Backed.drop (hbacked : Backed total memory held) (hheld : held holder = some frame) :
    Backed total (Memory.dropped memory frame) (update held holder none) := by
  have hone := hbacked.counted holder frame hheld
  have hfree : (Memory.dropped memory frame).free = frame :: memory.free := by
    rw [dropped_free, if_pos hone]
  refine ⟨by rw [hfree]; exact hbacked.stocked.give hheld, ?_, hbacked.ranged⟩
  intro each page hsome
  by_cases heach : each = holder
  · rw [heach, update_self] at hsome
    cases hsome
  · rw [update_of_ne heach] at hsome
    have hpage : page ≠ frame := by
      rintro rfl
      exact heach (hbacked.stocked.sole each holder page hsome hheld)
    change update memory.count frame _ page = 1
    rw [update_of_ne hpage]
    exact hbacked.counted each page hsome

end Backed

/-! ## An address space under construction -/

/-- An address space with the books of its pages. -/
structure Standing (keeps : Memory → (Piece → Option ℕ) → Prop) (proc : Proc)
    (memory : Memory) (found : Space) : Prop where
  spaces : memory.spaces proc = some found
  kept : keeps memory (holds found)
  formed : found.table.Formed
  leafy : Leafy found.table

/-- Books in which the pages of tables can be entered, with what is known when
the free list has run dry while a table of `bound` is wanted. -/
structure Supply (keeps : Memory → (Piece → Option ℕ) → Prop)
    (bound : Piece → Prop) (stopped : Panic → Memory → Prop) : Prop where
  take : ∀ memory held piece frame rest, keeps memory held →
    memory.free = frame :: rest → (∀ vpn, piece ≠ .page vpn) → bound piece → held piece = none →
      keeps (Memory.taken memory frame rest) (update held piece (some frame))
  spaces : ∀ memory held spaces, keeps memory held → keeps { memory with spaces := spaces } held
  starved : ∀ memory held piece, keeps memory held → memory.free = [] →
    (∀ vpn, piece ≠ .page vpn) → bound piece → held piece = none → stopped .outOfMemory memory

/-- Books in which user pages can be entered as well, and the pages that are held
are not free. -/
structure Provision (keeps : Memory → (Piece → Option ℕ) → Prop)
    (bound : Piece → Prop) (stopped : Panic → Memory → Prop) : Prop
    extends Supply keeps bound stopped where
  takePage : ∀ memory held vpn frame rest, keeps memory held →
    memory.free = frame :: rest → bound (.page vpn) → held (.page vpn) = none →
      keeps (Memory.taken memory frame rest) (update held (.page vpn) (some frame))
  starvedPage : ∀ memory held vpn, keeps memory held → memory.free = [] →
    bound (.page vpn) → held (.page vpn) = none → stopped .outOfMemory memory
  apart : ∀ memory held piece frame, keeps memory held →
    held piece = some frame → frame ∉ memory.free

def inHand (keeps : Memory → (Piece → Option ℕ) → Prop)
    (vpn : Fin userPages) (frame : ℕ) (memory : Memory) (held : Piece → Option ℕ) : Prop :=
  keeps memory (update held (.page vpn) (some frame))

def Exhausted (cause : Panic) (_ : Memory) : Prop := cause = .outOfMemory

theorem provision_backed (total : Finset ℕ) (bound : Piece → Prop) :
    Provision (Backed total) bound Exhausted where
  take := fun _ _ _ _ _ hbacked hfree _ _ hnone => hbacked.take hfree hnone
  spaces := fun _ _ _ hbacked => hbacked.congr rfl rfl
  starved := fun _ _ _ _ _ _ _ _ => rfl
  takePage := fun _ _ _ _ _ hbacked hfree _ hnone => hbacked.take hfree hnone
  starvedPage := fun _ _ _ _ _ _ _ => rfl
  apart := fun _ _ piece frame hbacked => hbacked.stocked.apart piece frame

def image (table : Table) (vpn : ℕ) : Option Pte :=
  if vpn < vpnCount ∧ (table.leaf (vpn * pgSize)).v = true then
    some (table.leaf (vpn * pgSize))
  else none

structure Drawn (proc : Proc) (memory next : Memory) : Prop where
  free : ∀ frame ∈ next.free, frame ∈ memory.free
  bytes : ∀ frame ∉ memory.free, next.bytes frame = memory.bytes frame
  spaces : ∀ other ≠ proc, next.spaces other = memory.spaces other

theorem Drawn.refl (proc : Proc) (memory : Memory) : Drawn proc memory memory :=
  ⟨fun _ hfree => hfree, fun _ _ => rfl, fun _ _ => rfl⟩

theorem Drawn.trans {proc : Proc} {first middle last : Memory}
    (hfirst : Drawn proc first middle) (hlast : Drawn proc middle last) :
    Drawn proc first last where
  free := fun frame hfree => hfirst.free frame (hlast.free frame hfree)
  bytes := fun frame hfree => by
    rw [hlast.bytes frame fun hmiddle => hfree (hfirst.free frame hmiddle),
      hfirst.bytes frame hfree]
  spaces := fun other hother => by rw [hlast.spaces other hother, hfirst.spaces other hother]

section Construction

variable {keeps : Memory → (Piece → Option ℕ) → Prop} {bound : Piece → Prop}
variable {stopped : Panic → Memory → Prop} {proc : Proc}
variable {memory next : Memory} {found changed : Space}
variable {frame va : ℕ} {rest : List ℕ} {pte : Pte} {piece : Piece}

/-- A page in hand does not matter to the tables. -/
theorem Supply.inHand (hsupply : Supply keeps bound stopped) (vpn : Fin userPages) (page : ℕ) :
    Supply (inHand keeps vpn page) bound stopped where
  take := by
    intro memory held piece frame rest hkept hfree hpiece hbound hnone
    unfold Backing.inHand
    rw [update_comm (hpiece vpn)]
    apply hsupply.take _ _ _ _ _ hkept hfree hpiece hbound
    rw [update_of_ne (hpiece vpn)]
    exact hnone
  spaces := fun memory held spaces hkept => hsupply.spaces _ _ spaces hkept
  starved := by
    intro memory held piece hkept hfree hpiece hbound hnone
    apply hsupply.starved _ _ piece hkept hfree hpiece hbound
    rw [update_of_ne (hpiece vpn)]
    exact hnone

theorem drawn_taken (hfree : memory.free = frame :: rest) {spaces : Proc → Option Space}
    (hspaces : ∀ other ≠ proc, spaces other = memory.spaces other) :
    Drawn proc memory { Memory.taken memory frame rest with
      spaces := spaces } where
  free := fun each hmem => by
    rw [hfree]
    exact List.mem_cons_of_mem _ hmem
  bytes := by
    intro each hmem
    refine update_of_ne ?_ ..
    rintro rfl
    exact hmem (by rw [hfree]; exact List.mem_cons_self)
  spaces := hspaces

/-- A page from the free list becomes a table. -/
theorem Standing.hang (hsupply : Supply keeps bound stopped)
    (hstanding : Standing keeps proc memory found)
    (hfree : memory.free = frame :: rest) (hpiece : ∀ vpn, piece ≠ .page vpn)
    (hbound : bound piece) (hnone : holds found piece = none)
    (hholds : holds changed = update (holds found) piece (some frame))
    (hformed : changed.table.Formed) (hleafy : Leafy changed.table) :
    Standing keeps proc { Memory.taken memory frame rest with
      spaces := update memory.spaces proc (some changed) } changed where
  spaces := update_self ..
  kept := by
    rw [hholds]
    exact hsupply.spaces _ _ _ (hsupply.take _ _ _ _ _ hstanding.kept hfree hpiece hbound hnone)
  formed := hformed
  leafy := hleafy

theorem leafy_hang_mid (hleafy : Leafy found.table) (i j : Index) :
    Leafy (found.table.hang (.mid i j) frame) := by
  intro other slot k
  rw [Table.bottom_hang_mid]
  split_ifs
  · nofun
  · exact hleafy other slot k

theorem image_hang_mid {table : Table} (hformed : table.Formed)
    {i j : Index} (hinvalid : (table.mid i j).v = false) :
    image (table.hang (.mid i j) frame) = image table := by
  funext vpn
  obtain ⟨hvalid, hsame⟩ := target_leaf_hang_mid hformed hinvalid frame (vpn * pgSize)
  unfold image
  rw [hvalid]
  split
  · next hleaf => rw [hsame hleaf.2]
  · rfl

def Along (bound : Piece → Prop) (va : ℕ) : Prop :=
  bound (.mid (pageNum va 2)) ∧ bound (.bottom (pageNum va 2) (pageNum va 1))

structure Reached (keeps : Memory → (Piece → Option ℕ) → Prop) (proc : Proc)
    (memory : Memory) (found : Space) (next : Memory) (changed : Space) : Prop where
  standing : Standing keeps proc next changed
  drawn : Drawn proc memory next
  same : changed = { found with table := changed.table }
  image : image changed.table = image found.table

theorem survives_reached (hsupply : Supply keeps bound stopped) (halong : Along bound va)
    (memory : Memory) (found : Space) :
    Survives (Reached keeps proc memory found) proc va stopped where
  spaces := fun _ _ hreached => hreached.standing.spaces
  layered := fun _ _ hreached => (Table.formed_iff.mp hreached.standing.formed).1
  hang := by
    intro next changed place frame rest hreached hwanting hfree
    have hstanding := hreached.standing
    have hdrawn : Drawn proc memory { next.taken frame rest with
        spaces := update next.spaces proc
          (some { changed with table := changed.table.hang place frame }) } :=
      hreached.drawn.trans (drawn_taken hfree fun other hother => update_of_ne hother ..)
    cases hwanting with
    | top hinvalid =>
      have hnone : holds changed (.mid (pageNum va 2)) = none := target_eq_none hinvalid
      refine ⟨hstanding.hang hsupply hfree (by simp) halong.1 hnone
        (holds_hang_top hstanding.formed hinvalid) (hstanding.formed.hang_top hinvalid frame)
        hstanding.leafy, hdrawn, ?_, hreached.image⟩
      rw [hreached.same]
    | mid htop hinvalid =>
      have hnone : holds changed (.bottom (pageNum va 2) (pageNum va 1)) = none :=
        target_eq_none hinvalid
      refine ⟨hstanding.hang hsupply hfree (by simp) halong.2 hnone
        (holds_hang_mid hstanding.formed hinvalid) (hstanding.formed.hang_mid htop frame)
        (leafy_hang_mid hstanding.leafy _ _), hdrawn, ?_,
        (image_hang_mid hstanding.formed hinvalid).trans hreached.image⟩
      rw [hreached.same]
  starved := by
    rintro next changed _ hreached (hinvalid | ⟨-, hinvalid⟩) hfree
    · exact hsupply.starved _ _ (.mid _) hreached.standing.kept hfree (by simp) halong.1
        (target_eq_none hinvalid)
    · exact hsupply.starved _ _ (.bottom _ _) hreached.standing.kept hfree (by simp) halong.2
        (target_eq_none hinvalid)

/-- `translate` with allocation leads to the last-level entry. -/
theorem ensures_walk (hsupply : Supply keeps bound stopped)
    (hstanding : Standing keeps proc memory found) (hva : va ≤ maxVa) (halong : Along bound va) :
    Ensures (walk proc va) memory (fun place next =>
      place = some (slot va) ∧ ∃ changed, Reached keeps proc memory found next changed ∧
        (changed.table.mid (pageNum va 2) (pageNum va 1)).v = true) stopped := by
  refine ((survives_reached hsupply halong memory found).ensures_walk
    ⟨hstanding, Drawn.refl _ _, rfl, rfl⟩ hva).imp_returned ?_
  rintro _ next ⟨stop, changed, rfl, hreached, hreaches⟩
  obtain ⟨rfl, hunder⟩ := hreaches.of_formed hreached.standing.formed
  exact ⟨rfl, changed, hreached, hunder⟩

/-! ## Entries -/

variable {table : Table} {vpn : ℕ} {perm : Pte}

theorem page_div (vpn : ℕ) : vpn * pgSize / pgSize = vpn :=
  Nat.mul_div_cancel _ (by decide)

theorem image_eq_some (hvpn : vpn < vpnCount) (hvalid : (table.leaf (vpn * pgSize)).v = true) :
    image table vpn = some (table.leaf (vpn * pgSize)) :=
  if_pos ⟨hvpn, hvalid⟩

theorem leaf_of_image (himage : image table vpn = some pte) :
    vpn < vpnCount ∧ table.leaf (vpn * pgSize) = pte ∧ pte.v = true := by
  unfold image at himage
  split at himage
  · next hvalid =>
      cases himage
      exact ⟨hvalid.1, rfl, hvalid.2⟩
  · cases himage

theorem leaf_of_image_none (hvpn : vpn < vpnCount) (himage : image table vpn = none) :
    (table.leaf (vpn * pgSize)).v = false := by
  refine Bool.eq_false_iff.mpr fun hvalid => ?_
  rw [image_eq_some hvpn hvalid] at himage
  cases himage

theorem image_set (hvpn : vpn < vpnCount) :
    image (table.set (slot (vpn * pgSize)) pte) =
      update (image table) vpn (if pte.v = true then some pte else none) := by
  have hdiv : vpn * pgSize / pgSize < vpnCount := by rwa [page_div]
  funext each
  unfold image
  by_cases heach : each = vpn
  · subst heach
    rw [update_self, leaf_set_page hdiv each hvpn, if_pos (page_div each).symm]
    simp only [hvpn, true_and]
  · rw [update_of_ne heach]
    by_cases hcount : each < vpnCount
    · rw [leaf_set_page hdiv each hcount, page_div, if_neg heach]
    · rw [if_neg fun h => hcount h.1, if_neg fun h => hcount h.1]

theorem holds_page (vpn : Fin userPages) :
    holds found (.page vpn) = (image found.table vpn).map Pte.ppn := by
  have hcount : userPages ≤ vpnCount := by decide
  have hvpn := vpn.isLt
  change target _ = _
  rw [target, image]
  by_cases hvalid : (found.table.leaf (vpn * pgSize)).v = true
  · rw [if_pos hvalid, if_pos ⟨by omega, hvalid⟩]
    rfl
  · rw [if_neg hvalid, if_neg fun h => hvalid h.2]
    rfl

theorem leafy_set (hleafy : Leafy table) (hleaf : pte.v = true →
    pte.isLeaf = true) : Leafy (table.set (slot va) pte) := by
  intro i j k
  rw [slot, Table.bottom_set_bottom]
  split_ifs
  · exact hleaf
  · exact hleafy i j k

/-- An entry of the last level is written. -/
theorem Standing.set {after : Memory → (Piece → Option ℕ) → Prop}
    (hstanding : Standing keeps proc memory found)
    (hunder : (found.table.mid (pageNum va 2) (pageNum va 1)).v = true) (hleaf : pte.isLeaf = true)
    (hchanged : changed = { found with
      table := found.table.set (slot va) pte })
    (hafter : keeps memory (holds found) →
      after { memory with spaces := update memory.spaces proc (some changed) } (holds changed)) :
    Standing after proc { memory with
      spaces := update memory.spaces proc (some changed) } changed where
  spaces := update_self ..
  kept := hafter hstanding.kept
  formed := by
    rw [hchanged]
    exact hstanding.formed.set fun _ => hunder
  leafy := by
    rw [hchanged]
    exact leafy_set hstanding.leafy fun _ => hleaf

structure Entered (keeps : Memory → (Piece → Option ℕ) → Prop) (proc : Proc)
    (memory : Memory) (found : Space) (vpn : ℕ) (pte : Pte) (next : Memory)
    (changed : Space) : Prop where
  standing : Standing keeps proc next changed
  drawn : Drawn proc memory next
  same : changed = { found with table := changed.table }
  image : image changed.table = update (image found.table) vpn (some pte)

theorem page_le_maxVa (hvpn : vpn < userPages) : vpn * pgSize ≤ maxVa := by
  have hpages : userPages = 67108862 := rfl
  have hlimit : maxVa = 274877906944 := rfl
  rw [show pgSize = 4096 from rfl]
  omega

/-- `map` of one page that is not mapped. -/
theorem ensures_map {after : Memory → (Piece → Option ℕ) → Prop}
    (hsupply : Supply keeps bound stopped) (hstanding : Standing keeps proc memory found)
    (hvpn : vpn * pgSize ≤ maxVa) (halong : Along bound (vpn * pgSize))
    (hnone : image found.table vpn = none) (hleaf : perm.isLeaf = true)
    (hafter : ∀ next reached changed spaces, keeps next (holds reached) →
      image reached.table vpn = none → changed = { reached with
        table := reached.table.set (slot (vpn * pgSize)) (perm.withPerm frame) } →
      after { next with spaces := spaces } (holds changed)) :
    Ensures (map proc (vpn * pgSize) frame pgSize perm) memory
      (fun done next => done = true ∧ ∃ changed, Entered after proc
        memory found vpn (perm.withPerm frame) next changed) stopped := by
  have hcount : vpn < vpnCount := by
    have hlimit := lt_vpnCount_of_le_maxVa hvpn
    rwa [page_div] at hlimit
  rw [map_eq_mapPage (Nat.mul_mod_left ..)]
  simp only [mapPage, ensures_bind]
  refine (ensures_walk hsupply hstanding hvpn halong).imp_returned ?_
  rintro _ next ⟨rfl, reached, hreached, hunder⟩
  have hempty : image reached.table vpn = none := by rw [hreached.image, hnone]
  simp only [ensures_bind]
  refine (ensures_space_found hreached.standing.spaces).mpr (ensures_ite.mpr ⟨?_, ?_⟩)
  · intro hvalid
    have hinvalid := leaf_of_image_none hcount hempty
    change (reached.table.leaf (vpn * pgSize)).v = true at hvalid
    rw [hvalid] at hinvalid
    cases hinvalid
  · intro _
    simp only [ensures_bind]
    have hpermLeaf : (perm.withPerm frame).isLeaf = true := hleaf
    refine (ensures_modifyTable hreached.standing.spaces).mpr ⟨rfl, _,
      hreached.standing.set hunder hpermLeaf rfl fun hkept =>
        hafter next reached _ _ hkept hempty rfl, ?_, ?_, ?_⟩
    · refine hreached.drawn.trans ⟨fun _ hfree => hfree, fun _ _ => rfl, ?_⟩
      exact fun other hother => update_of_ne hother ..
    · rw [hreached.same]
    · rw [← hreached.image]
      exact image_set hcount

theorem holds_set_page (hvpn : vpn < userPages) :
    holds { found with table := found.table.set (slot (vpn * pgSize)) pte } =
      update (holds found) (.page ⟨vpn, hvpn⟩) (target pte) := by
  have hva : vpn * pgSize / pgSize < userPages := by rwa [page_div]
  have hfin : (⟨vpn * pgSize / pgSize, hva⟩ : Fin userPages) = ⟨vpn, hvpn⟩ := Fin.ext (page_div vpn)
  rw [holds_set hva, hfin]

theorem ensures_map_inHand (hsupply : Supply keeps bound stopped) {hvpn : vpn < userPages}
    (hstanding : Standing (inHand keeps ⟨vpn, hvpn⟩ frame) proc memory found)
    (halong : Along bound (vpn * pgSize))
    (hnone : image found.table vpn = none) (hleaf : perm.isLeaf = true) :
    Ensures (map proc (vpn * pgSize) frame pgSize perm) memory
      (fun done next => done = true ∧ ∃ changed, Entered keeps proc
        memory found vpn (perm.withPerm frame) next changed) stopped := by
  apply ensures_map (hsupply.inHand _ _) hstanding (page_le_maxVa hvpn) halong hnone hleaf
  rintro next reached _ spaces hkept - rfl
  rw [holds_set_page hvpn]
  exact hsupply.spaces _ _ _ hkept

/-- A page of the kernel is mapped at or above the trap frame. -/
theorem ensures_map_upper (hsupply : Supply keeps bound stopped)
    (hstanding : Standing keeps proc memory found)
    (hvpn : userPages ≤ vpn) (hmax : vpn * pgSize ≤ maxVa) (halong : Along bound (vpn * pgSize))
    (hnone : image found.table vpn = none) (hleaf : perm.isLeaf = true) :
    Ensures (map proc (vpn * pgSize) frame pgSize perm) memory
      (fun done next => done = true ∧ ∃ changed, Entered keeps proc
        memory found vpn (perm.withPerm frame) next changed) stopped := by
  have hcount : vpn < vpnCount := by
    have hlimit := lt_vpnCount_of_le_maxVa hmax
    rwa [page_div] at hlimit
  apply ensures_map hsupply hstanding hmax halong hnone hleaf
  rintro next reached _ spaces hkept - rfl
  rw [holds_set_upper (by rwa [page_div]) (by rwa [page_div])]
  exact hsupply.spaces _ _ _ hkept

end Construction

/-! ## Taking an address space down -/

/-- Books of the pieces of an address space. -/
structure Books (keeps : Memory → (Piece → Option ℕ) → Prop)
    (stopped : Panic → Memory → Prop) : Prop where
  keeper : Keeper keeps stopped
  spaces : ∀ memory held spaces, keeps memory held → keeps { memory with spaces := spaces } held

theorem books_backed (total : Finset ℕ) (stopped : Panic → Memory → Prop) :
    Books (Backed total) stopped where
  keeper := fun _ _ _ _ hbacked hheld =>
    ensures_dealloc.mpr
      ⟨fun hout => absurd (hbacked.inRange hheld) hout, fun _ => ⟨rfl, hbacked.drop hheld⟩⟩
  spaces := fun _ _ _ hbacked => hbacked.congr rfl rfl

/-- Entries have been cleared, and their pages given back. -/
structure Cleared (keeps : Memory → (Piece → Option ℕ) → Prop) (proc : Proc)
    (memory : Memory) (found : Space) (gone : ℕ → Prop) (next : Memory)
    (changed : Space) : Prop where
  standing : Standing keeps proc next changed
  same : changed = { found with table := changed.table }
  clear : ∀ vpn, gone vpn → image changed.table vpn = none
  image : ∀ vpn, ¬gone vpn → image changed.table vpn = image found.table vpn
  bytes : next.bytes = memory.bytes
  others : ∀ other ≠ proc, next.spaces other = memory.spaces other

section Unmapping

variable {keeps : Memory → (Piece → Option ℕ) → Prop}
variable {stopped : Panic → Memory → Prop} {proc : Proc}
variable {memory next last : Memory} {found changed final : Space}
variable {vpn first pages : ℕ} {gone more : ℕ → Prop}

theorem Standing.cleared (hstanding : Standing keeps proc memory found) (hgone : ∀ vpn, ¬gone vpn) :
    Cleared keeps proc memory found gone memory found :=
  ⟨hstanding, rfl, fun vpn h => absurd h (hgone vpn), fun _ _ => rfl, rfl, fun _ _ => rfl⟩

theorem Cleared.trans (hfirst : Cleared keeps proc memory found gone next changed)
    (hlast : Cleared keeps proc next changed more last final) :
    Cleared keeps proc memory found (fun vpn => gone vpn ∨ more vpn) last final where
  standing := hlast.standing
  same := by rw [hlast.same, hfirst.same]
  clear := by
    intro vpn hgone
    by_cases hmore : more vpn
    · exact hlast.clear vpn hmore
    · rw [hlast.image vpn hmore]
      exact hfirst.clear vpn (hgone.resolve_right hmore)
  image := by
    intro vpn hkept
    rw [hlast.image vpn fun h => hkept (Or.inr h), hfirst.image vpn fun h => hkept (Or.inl h)]
  bytes := hlast.bytes.trans hfirst.bytes
  others := fun other hother => (hlast.others other hother).trans (hfirst.others other hother)

theorem Cleared.congr (hcleared : Cleared keeps proc memory found gone next changed)
    (hsame : ∀ vpn, more vpn ↔ gone vpn) :
    Cleared keeps proc memory found more next changed where
  standing := hcleared.standing
  same := hcleared.same
  clear := fun vpn hmore => hcleared.clear vpn ((hsame vpn).mp hmore)
  image := fun vpn hkept => hcleared.image vpn fun hgone => hkept ((hsame vpn).mpr hgone)
  bytes := hcleared.bytes
  others := hcleared.others

theorem lookup_of_image {table : Table} (hformed : table.Formed) (hmax : vpn * pgSize ≤ maxVa)
    (hsome : (image table vpn).isSome = true) :
    table.lookup (vpn * pgSize) = some (slot (vpn * pgSize)) ∧
      (table.leaf (vpn * pgSize)).v = true := by
  obtain ⟨pte, himage⟩ := Option.isSome_iff_exists.mp hsome
  obtain ⟨-, hleaf, hvalid⟩ := leaf_of_image himage
  rw [← hleaf] at hvalid
  exact ⟨hformed.lookup_eq hmax hvalid, hvalid⟩

/-- A user page is unmapped and given back. -/
theorem ensures_unmapPage (hbooks : Books keeps stopped)
    (hstanding : Standing keeps proc memory found) (hvpn : vpn < userPages)
    (hsome : (image found.table vpn).isSome = true) :
    Ensures (unmapPage proc (vpn * pgSize) true) memory (fun _ next =>
      ∃ changed, Cleared keeps proc memory found (· = vpn) next changed)
      stopped := by
  have hcount : userPages ≤ vpnCount := by decide
  obtain ⟨hlookup, hvalid⟩ := lookup_of_image hstanding.formed (page_le_maxVa hvpn) hsome
  have hva : vpn * pgSize / pgSize < userPages := by rwa [page_div]
  have hfin : (⟨vpn * pgSize / pgSize, hva⟩ : Fin userPages) = ⟨vpn, hvpn⟩ := Fin.ext (page_div vpn)
  have hheld : holds found (.page ⟨vpn, hvpn⟩) =
      some (found.table.leaf (vpn * pgSize)).ppn := target_eq_some hvalid
  simp only [unmapPage, ensures_bind]
  rw [ensures_space_found hstanding.spaces, hlookup]
  change Ensures (if (found.table.leaf (vpn * pgSize)).v = true then _
    else _) _ _ _
  rw [if_pos hvalid, if_pos trivial, ensures_bind]
  refine (hbooks.keeper memory _ _ _ hstanding.kept hheld).imp_returned ?_
  rintro _ middle ⟨rfl, hkept⟩
  have hspaces : (memory.dropped (found.table.leaf (vpn * pgSize)).ppn).spaces proc =
      some found := hstanding.spaces
  refine (ensures_modifyTable hspaces).mpr ⟨_, ⟨update_self .., ?_,
    hstanding.formed.set nofun, leafy_set hstanding.leafy nofun⟩, rfl, ?_, ?_, rfl,
    fun other hother => update_of_ne hother ..⟩
  · rw [holds_set hva, hfin]
    exact hbooks.spaces _ _ _ hkept
  · rintro each rfl
    rw [image_set (by omega), update_self]
    rfl
  · intro each heach
    rw [image_set (by omega), update_of_ne heach]

theorem ensures_unmapPages (hbooks : Books keeps stopped)
    (hstanding : Standing keeps proc memory found) (hrange : first + pages ≤ userPages)
    (hsome : ∀ vpn, first ≤ vpn → vpn < first + pages → (image found.table vpn).isSome = true) :
    Ensures (unmapPages proc true pages (first * pgSize)) memory
      (fun _ next => ∃ changed, Cleared keeps proc memory found
        (fun vpn => first ≤ vpn ∧ vpn < first + pages) next changed)
      stopped := by
  induction pages generalizing first memory found with
  | zero => exact ⟨found, hstanding.cleared fun vpn h => by omega⟩
  | succ pages ih =>
    simp only [unmapPages, ensures_bind]
    refine (ensures_unmapPage hbooks hstanding (by omega)
      (hsome first (le_refl _) (by omega))).imp_returned ?_
    rintro _ middle ⟨changed, hchanged⟩
    rw [addPage, ← Nat.succ_mul]
    refine (ih hchanged.standing (by omega) ?_).imp_returned ?_
    · intro vpn hlow hhigh
      rw [hchanged.image vpn (show ¬vpn = first by omega)]
      exact hsome vpn (by omega) (by omega)
    · rintro _ last ⟨final, hfinal⟩
      exact ⟨final, (hchanged.trans hfinal).congr fun vpn => by omega⟩

theorem ensures_uunmap (hbooks : Books keeps stopped) (hstanding : Standing keeps proc memory found)
    (hrange : first + pages ≤ userPages) (hsome : ∀ vpn, first ≤ vpn → vpn < first + pages →
      (image found.table vpn).isSome = true) :
    Ensures (uunmap proc (first * pgSize) pages true) memory
      (fun _ next => ∃ changed, Cleared keeps proc memory found
        (fun vpn => first ≤ vpn ∧ vpn < first + pages) next changed)
      stopped := by
  unfold uunmap
  rw [if_neg (by rw [Nat.mul_mod_left]; exact fun h => h rfl)]
  exact ensures_unmapPages hbooks hstanding hrange hsome

/-- Unmapping without freeing only looks at the entry. -/
theorem ensures_uunmap_keep (hstanding : Standing keeps proc memory found)
    (hmax : vpn * pgSize ≤ maxVa) (hsome : (image found.table vpn).isSome = true) :
    Ensures (uunmap proc (vpn * pgSize) 1 false) memory (fun _ next => next = memory) stopped := by
  obtain ⟨hlookup, hvalid⟩ := lookup_of_image hstanding.formed hmax hsome
  unfold uunmap
  rw [if_neg (by rw [Nat.mul_mod_left]; exact fun h => h rfl)]
  simp only [unmapPages, unmapPage, ensures_bind]
  rw [ensures_space_found hstanding.spaces, hlookup]
  change Ensures (if (found.table.leaf (vpn * pgSize)).v = true then _
    else _) _ _ _
  rw [if_pos hvalid]
  rfl

end Unmapping

end RxOs.Backing
