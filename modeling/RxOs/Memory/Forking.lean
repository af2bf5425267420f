import RxOs.Memory.ProcessSize

/-!
# Forking

`fork` shares the user pages of the parent with the child, copies the guard page
and the stack, and copies the trap frame.  The loop over the user pages ends
when the address equals the size, so that it ends only for sizes that are whole
pages; for these the child reads the same bytes as the parent, provided that
there are enough pages for its tables, its stack and its trap frame.
-/

namespace RxOs.Forking

open Function Exec Stock Transition PageTable Frames AddressSpace Holdings
open Releasing Sharing ProcessPages Backing GrowShrink ProcessSize
open CopyOnWrite (boot outcome)
open Kernel (Proc)

/-! ## The pages of the child -/

/-- The pages that a child has for itself: the user pages below the size are
those of the parent. -/
def own (pages : ℕ) (held : Piece → Option ℕ) : Piece → Option ℕ
  | .page vpn => if vpn.val < pages then none else held (.page vpn)
  | piece => held piece

def tables (vpn : ℕ) : Finset Piece :=
  {.mid (pageNum (vpn * pgSize) 2),
    .bottom (pageNum (vpn * pgSize) 2) (pageNum (vpn * pgSize) 1)}

def span (pages : ℕ) : Finset ℕ :=
  Finset.range pages ∪ Finset.Ico guardPage (userPages + 2)

def needed (pages : ℕ) : Finset Piece :=
  {.root, .trapframe, .page ⟨guardPage, by decide⟩,
    .page ⟨guardPage + 1, by decide⟩} ∪ (span pages).biUnion tables

/-- The pages that were free before the call are free or held once by the
child. -/
structure Lent (total : Finset ℕ) (pages : ℕ) (memory : Memory)
    (held : Piece → Option ℕ) : Prop where
  stocked : Stocked total memory.free (own pages held)
  bounded : ∀ piece frame, own pages held piece = some frame → piece ∈ needed pages

/-- There were fewer pages than the child needs. -/
def Starved (total : Finset ℕ) (pages : ℕ) (cause : Panic) (_ : Memory) : Prop :=
  cause = .outOfMemory ∧ total.card < (needed pages).card

section Books

variable {total : Finset ℕ} {pages : ℕ} {memory next : Memory}
variable {held : Piece → Option ℕ} {value : Option ℕ} {piece : Piece}
variable {vpn : Fin userPages} {frame : ℕ} {rest : List ℕ}

theorem own_update_table (hpiece : ∀ vpn, piece ≠ .page vpn) :
    own pages (update held piece value) = update (own pages held) piece value := by
  funext other
  by_cases hother : other = piece
  · subst hother
    rw [update_self]
    cases other with
    | page vpn => exact absurd rfl (hpiece vpn)
    | _ => simp only [own, update_self]
  · rw [update_of_ne hother]
    cases other <;> simp only [own, update_of_ne hother]

theorem own_update_page (hvpn : pages ≤ vpn.val) :
    own pages (update held (.page vpn) value) = update (own pages held) (.page vpn) value := by
  funext other
  by_cases hother : other = .page vpn
  · subst hother
    rw [update_self, own, if_neg (not_lt.mpr hvpn), update_self]
  · rw [update_of_ne hother]
    cases other <;> simp only [own, update_of_ne hother]

theorem own_update_shared (hvpn : vpn.val < pages) :
    own pages (update held (.page vpn) value) = own pages held := by
  funext other
  by_cases hother : other = .page vpn
  · subst hother
    rw [own, own, if_pos hvpn, if_pos hvpn]
  · cases other <;> simp only [own, update_of_ne hother]

theorem Lent.congr (hlent : Lent total pages memory held)
    (hfree : next.free = memory.free) : Lent total pages next held := by
  refine ⟨?_, hlent.bounded⟩
  rw [hfree]
  exact hlent.stocked

/-- A page is taken for a piece that the child needs. -/
theorem Lent.take (hlent : Lent total pages memory held)
    (hfree : memory.free = frame :: rest) (hbound : piece ∈ needed pages)
    (hnone : own pages held piece = none) (howned : own pages (update held piece (some frame)) =
      update (own pages held) piece (some frame)) :
    Lent total pages (Memory.taken memory frame rest) (update held piece (some frame)) where
  stocked := by
    have hstocked := hlent.stocked
    rw [hfree] at hstocked
    rw [howned]
    exact hstocked.take hnone
  bounded := by
    intro other each hsome
    rw [howned] at hsome
    by_cases hother : other = piece
    · rw [hother]
      exact hbound
    · rw [update_of_ne hother] at hsome
      exact hlent.bounded other each hsome

theorem Lent.starved (hlent : Lent total pages memory held)
    (hfree : memory.free = []) (hbound : piece ∈ needed pages)
    (hnone : own pages held piece = none) : Starved total pages .outOfMemory memory := by
  have hstocked := hlent.stocked
  rw [hfree] at hstocked
  exact ⟨rfl, hstocked.card_lt hlent.bounded hbound hnone⟩

theorem own_table (hpiece : ∀ vpn, piece ≠ .page vpn) : own pages held piece = held piece := by
  cases piece with
  | page vpn => exact absurd rfl (hpiece vpn)
  | _ => rfl

theorem supply_lent (total : Finset ℕ) (pages : ℕ) :
    Supply (Lent total pages) (· ∈ needed pages) (Starved total pages) where
  take := fun _ _ _ _ _ hlent hfree hpiece hbound hnone =>
    hlent.take hfree hbound ((own_table hpiece).trans hnone) (own_update_table hpiece)
  spaces := fun _ _ _ hlent => hlent.congr rfl
  starved := fun _ _ _ hlent hfree hpiece hbound hnone =>
    hlent.starved hfree hbound ((own_table hpiece).trans hnone)

theorem mem_span {each : ℕ} : each ∈ span pages ↔
    each < pages ∨ guardPage ≤ each ∧ each < userPages + 2 := by
  rw [span, Finset.mem_union, Finset.mem_range, Finset.mem_Ico]

theorem along_of_span {each : ℕ} (heach : each ∈ span pages) :
    Along (· ∈ needed pages) (each * pgSize) := by
  have hsub : tables each ⊆ needed pages := (Finset.subset_biUnion_of_mem tables heach).trans
      Finset.subset_union_right
  exact ⟨hsub (by simp [tables]), hsub (by simp [tables])⟩

theorem stack_needed (pages : ℕ) {each : ℕ} (hlow : guardPage ≤ each)
    (huser : each < userPages) : Piece.page ⟨each, huser⟩ ∈ needed pages := by
  have hguard : guardPage + 2 = userPages := rfl
  apply Finset.mem_union_left
  obtain rfl | rfl : each = guardPage ∨ each = guardPage + 1 := by omega
  · simp
  · simp

theorem lent_nothing (hnodup : memory.free.Nodup) :
    Lent memory.free.toFinset pages memory fun _ => none := by
  have hnone : own pages (fun _ => none) = fun _ => none := by
    funext piece
    cases piece <;> simp only [own, ite_self]
  refine ⟨?_, ?_⟩
  · rw [hnone]
    refine ⟨hnodup, nofun, nofun, fun frame => ?_⟩
    rw [List.mem_toFinset]
    exact ⟨Or.inl, fun hmem => hmem.resolve_right nofun⟩
  · rw [hnone]
    nofun

end Books

/-! ## What a child should have -/

/-- The process can be forked: its user pages are those below its size, its
guard page and its stack, and none of its pages is free. -/
structure Forkable (memory : Memory) (parent : Proc) (found : Space) :
    Prop where
  spaces : memory.spaces parent = some found
  formed : found.table.Formed
  spanned : Spanned found.table (endPage found.size)
  fits : found.size ≤ sizeLimit
  usable : ∀ vpn < userPages, ∀ pte, image found.table vpn = some pte →
    (pte.r || pte.x) = true ∧ InRange pte.ppn ∧ pte.ppn ∉ memory.free
  trapframe : ∃ frame, found.trapframe = some frame ∧ frame ∉ memory.free
  nodup : memory.free.Nodup

/-- The page under `entry` reads like the page that was under `pte`. -/
structure Alike (memory : Memory) (pte : Pte) (next : Memory) (entry : Pte) :
    Prop where
  read : entry.r = pte.r
  execute : entry.x = pte.x
  user : entry.u = pte.u
  bytes : next.bytes entry.ppn = memory.bytes pte.ppn

/-- The child has the pages of the parent with the same bytes, and its trap
frame but for the zero in `a0`. -/
structure Cloned (memory : Memory) (found : Space) (next : Memory)
    (copy : Space) : Prop where
  size : copy.size = found.size
  spanned : Spanned copy.table (endPage found.size)
  reads : ∀ vpn < userPages, ∀ pte, image found.table vpn = some pte →
    ∃ entry, image copy.table vpn = some entry ∧ Alike memory pte next entry
  trapframe : ∃ source target, found.trapframe = some source ∧
    copy.trapframe = some target ∧ ∀ offset < trapframeSize,
      next.bytes target offset =
        if a0Offset ≤ offset ∧ offset < a0Offset + 8 then 0
        else memory.bytes source offset

/-- `fork` returns, and the child is a copy of the parent. -/
def Works (memory : Memory) (parent child : Proc) (found : Space) : Prop :=
  ∃ next copy, outcome (fork parent child) memory = some next ∧
    next.spaces child = some copy ∧ Cloned memory found next copy

/-! ## One page -/

/-- The child has the pages of `done`; the entries of the parent for the others
are as they were. -/
structure Progress (first : Memory) (parent child : Proc) (found : Space)
    (target : ℕ) (done : ℕ → Prop) (memory : Memory) (copy : Space) :
    Prop where
  parent : ∃ now, memory.spaces parent = some now ∧ now.table.Formed ∧
    ∀ vpn < userPages, ¬done vpn → image now.table vpn = image found.table vpn
  standing : Standing (Lent first.free.toFinset (endPage found.size)) child memory copy
  trapframe : copy.trapframe = some target
  reads : ∀ vpn < userPages, done vpn →
    ∀ pte, image found.table vpn = some pte → ∃ entry, image copy.table vpn = some entry ∧ Alike first pte memory entry ∧
      entry.ppn ∉ memory.free ∧ entry.ppn ≠ target
  empty : ∀ vpn < userPages, ¬done vpn → image copy.table vpn = none
  upper : ∀ vpn, userPages ≤ vpn → vpn < userPages + 2 → (image copy.table vpn).isSome = true
  free : ∀ frame ∈ memory.free, frame ∈ first.free
  bytes : ∀ frame ∉ first.free, memory.bytes frame = first.bytes frame

section Pages

variable {first memory middle next : Memory} {parent child : Proc}
variable {found copy changed : Space} {target vpn : ℕ} {done more : ℕ → Prop}
variable {pte entry : Pte}

theorem Progress.congr (hprogress : Progress first parent child found target done memory copy)
    (hsame : ∀ vpn, done vpn ↔ more vpn) :
    Progress first parent child found target more memory copy := by
  have hequal : done = more := funext fun vpn => propext (hsame vpn)
  rwa [← hequal]

/-- The child gets one more page. -/
theorem Progress.enter (hprogress : Progress first parent child found target done memory copy)
    (hentered : Entered (Lent first.free.toFinset (endPage found.size)) child
      middle copy vpn entry next changed)
    (hvpn : vpn < userPages) (hparent : ∃ now, next.spaces parent = some now ∧
      now.table.Formed ∧ ∀ each < userPages, ¬done each → each ≠ vpn →
        image now.table each = image found.table each)
    (hfree : ∀ frame ∈ middle.free, frame ∈ memory.free)
    (hbytes : ∀ frame ∉ memory.free, middle.bytes frame = memory.bytes frame)
    (hread : ∀ pte, image found.table vpn = some pte → Alike first pte next entry)
    (hapart : entry.ppn ∉ next.free) (hother : entry.ppn ≠ target) :
    Progress first parent child found target (fun each => done each ∨ each = vpn) next changed where
  parent := by
    obtain ⟨now, hnow, hformed, hsame⟩ := hparent
    refine ⟨now, hnow, hformed, fun each heach hnot => ?_⟩
    exact hsame each heach (fun h => hnot (Or.inl h)) fun h => hnot (Or.inr h)
  standing := hentered.standing
  trapframe := by
    rw [hentered.same]
    exact hprogress.trapframe
  reads := by
    intro each heach hdone pte himage
    by_cases hself : each = vpn
    · subst hself
      refine ⟨entry, ?_, hread pte himage, hapart, hother⟩
      rw [hentered.image, update_self]
    · obtain ⟨old, hold, halike, hheld, hne⟩ :=
        hprogress.reads each heach (hdone.resolve_right hself) pte himage
      have hgone : old.ppn ∉ middle.free := fun h => hheld (hfree _ h)
      refine ⟨old, ?_, ⟨halike.read, halike.execute, halike.user, ?_⟩, ?_, hne⟩
      · rw [hentered.image, update_of_ne hself]
        exact hold
      · rw [hentered.drawn.bytes _ hgone, hbytes _ hheld]
        exact halike.bytes
      · exact fun h => hgone (hentered.drawn.free _ h)
  empty := by
    intro each heach hnot
    have hself : each ≠ vpn := fun h => hnot (Or.inr h)
    rw [hentered.image, update_of_ne hself]
    exact hprogress.empty each heach fun h => hnot (Or.inl h)
  upper := by
    intro each hlow hhigh
    rw [hentered.image, update_of_ne (by omega)]
    exact hprogress.upper each hlow hhigh
  free := fun frame hmem => hprogress.free frame (hfree frame (hentered.drawn.free frame hmem))
  bytes := by
    intro frame hmem
    have hgone : frame ∉ memory.free := fun h => hmem (hprogress.free frame h)
    have hheld : frame ∉ middle.free := fun h => hgone (hfree frame h)
    rw [hentered.drawn.bytes frame hheld, hbytes frame hgone]
    exact hprogress.bytes frame hmem

/-- Both loops look at the entry of the parent. -/
theorem Progress.lookup (hprogress : Progress first parent child found target done memory copy)
    (hvpn : vpn < userPages) (hnot : ¬done vpn) (himage : image found.table vpn = some pte) :
    ∃ now, memory.spaces parent = some now ∧ now.table.Formed ∧
      now.table.lookup (vpn * pgSize) = some (slot (vpn * pgSize)) ∧
      now.table.get (slot (vpn * pgSize)) = pte ∧ pte.v = true ∧ (∀ each < userPages, ¬done each →
        image now.table each = image found.table each) := by
  obtain ⟨now, hnow, hformed, hsame⟩ := hprogress.parent
  have hentry : image now.table vpn = some pte := (hsame vpn hvpn hnot).trans himage
  have hsome : (image now.table vpn).isSome = true := by
    rw [hentry]
    rfl
  obtain ⟨-, hleaf, hvalid⟩ := leaf_of_image hentry
  exact ⟨now, hnow, hformed, (lookup_of_image hformed (page_le_maxVa hvpn) hsome).1, hleaf, hvalid,
    hsame⟩

/-- A page of the parent is mapped in the child. -/
theorem ensures_map_shared {total : Finset ℕ} {pages frame : ℕ} {perm : Pte}
    (hstanding : Standing (Lent total pages) child memory copy)
    (hvpn : vpn < pages) (huser : vpn < userPages)
    (hnone : image copy.table vpn = none) (hleaf : perm.isLeaf = true) :
    Ensures (map child (vpn * pgSize) frame pgSize perm) memory
      (fun done next => done = true ∧ ∃ changed, Entered (Lent total pages)
        child memory copy vpn (perm.withPerm frame) next changed) (Starved total pages) := by
  apply ensures_map (supply_lent total pages) hstanding (page_le_maxVa huser)
    (along_of_span (mem_span.mpr (Or.inl hvpn))) hnone hleaf
  rintro next reached _ spaces hkept - rfl
  rw [holds_set_page huser]
  refine ⟨?_, ?_⟩
  · rw [own_update_shared hvpn]
    exact hkept.stocked
  · rw [own_update_shared hvpn]
    exact hkept.bounded

/-- `ucopy_nocopy` shares a user page. -/
theorem ensures_shareOnePage (hforkable : Forkable first parent found) (hne : parent ≠ child)
    (hprogress : Progress first parent child found target done memory copy)
    (htarget : target ∈ first.free) (hvpn : vpn < endPage found.size) (hnot : ¬done vpn) :
    Ensures (shareOnePage parent child (vpn * pgSize)) memory
      (fun result next => result = true ∧ ∃ changed, Progress first parent child found target
          (fun each => done each ∨ each = vpn) next changed)
      (Starved first.free.toFinset (endPage found.size)) := by
  have hpages := endPage_le_guardPage hforkable.fits
  have hguard : guardPage + 2 = userPages := rfl
  have hcount : userPages ≤ vpnCount := by decide
  have huser : vpn < userPages := by omega
  obtain ⟨pte, himage⟩ := Option.isSome_iff_exists.mp
    ((hforkable.spanned.user vpn (by omega)).mpr hvpn)
  obtain ⟨hreadable, hrange, hheld⟩ := hforkable.usable vpn huser pte himage
  obtain ⟨now, hnow, hformed, hlookup, hentry, hvalid, hsame⟩ := hprogress.lookup huser hnot himage
  have hcow : pte.toCowPage.withPerm pte.ppn = pte.toCowPage := by
    rw [Pte.withPerm, Pte.toCowPage, hvalid]
  have hleaf : pte.toCowPage.isLeaf = true := by
    rw [← hreadable]
    exact congrArg (· || pte.x) (Bool.or_false pte.r)
  simp only [shareOnePage, ensures_bind]
  apply (ensures_space_found hnow).mpr
  rw [hlookup]
  dsimp only
  rw [hentry, if_pos hvalid]
  simp only [ensures_bind]
  apply (ensures_modifyTable hnow).mpr
  refine ensures_addCount.mpr ⟨fun hout => absurd hrange hout, fun _ => ?_⟩
  have hstanding : Standing (Lent first.free.toFinset (endPage found.size)) child
      { memory with
        spaces := update memory.spaces parent (some { now with
          table := now.table.set (slot (vpn * pgSize)) pte.toCowPage })
        count := update memory.count pte.ppn (memory.count pte.ppn + 1) }
      copy := by
    refine ⟨?_, hprogress.standing.kept.congr rfl, hprogress.standing.formed,
      hprogress.standing.leafy⟩
    exact (update_of_ne hne.symm ..).trans hprogress.standing.spaces
  apply (ensures_map_shared hstanding hvpn huser
    (hprogress.empty vpn huser hnot) hleaf).imp_returned
  rintro _ next ⟨rfl, changed, hentered⟩
  rw [hcow] at hentered
  rw [if_pos rfl]
  have hgone : pte.ppn ∉ memory.free := fun h => hheld (hprogress.free _ h)
  refine ⟨rfl, changed, hprogress.enter hentered huser ?_ (fun _ h => h) (fun _ _ => rfl) ?_ ?_ ?_⟩
  · refine ⟨_, (hentered.drawn.spaces parent hne).trans (update_self ..),
      hformed.set fun _ => hformed.bottom_under _ _ (pageNum (vpn * pgSize) 0) ?_, ?_⟩
    · exact (congrArg Pte.v hentry).trans hvalid
    · intro each heach hundone hother
      rw [image_set (by omega), update_of_ne hother]
      exact hsame each heach hundone
  · intro other hother
    obtain rfl := Option.some.inj (himage.symm.trans hother)
    refine ⟨rfl, rfl, rfl, ?_⟩
    exact (hentered.drawn.bytes _ hgone).trans (hprogress.bytes _ hheld)
  · exact fun h => hgone (hentered.drawn.free _ h)
  · rintro rfl
    exact hheld htarget

/-- `ucopy` copies a page of the stack. -/
theorem ensures_copyOnePage (hforkable : Forkable first parent found) (hne : parent ≠ child)
    (hprogress : Progress first parent child found target done memory copy)
    (hlow : guardPage ≤ vpn) (huser : vpn < userPages) (hnot : ¬done vpn) :
    Ensures (copyOnePage parent child (vpn * pgSize)) memory
      (fun result next => result = true ∧ ∃ changed, Progress first parent child found target
          (fun each => done each ∨ each = vpn) next changed)
      (Starved first.free.toFinset (endPage found.size)) := by
  have hpages := endPage_le_guardPage hforkable.fits
  have hguard : guardPage + 2 = userPages := rfl
  obtain ⟨pte, himage⟩ := Option.isSome_iff_exists.mp (hforkable.spanned.stack vpn hlow (by omega))
  obtain ⟨hreadable, -, hheld⟩ := hforkable.usable vpn huser pte himage
  obtain ⟨now, hnow, hformed, hlookup, hentry, hvalid, hsame⟩ := hprogress.lookup huser hnot himage
  have hnone := hprogress.empty vpn huser hnot
  have hleaf : pte.isLeaf = true := by
    cases hr : pte.r <;> simp_all [Pte.isLeaf]
  have hwanted := stack_needed (endPage found.size) hlow huser
  have hempty : own (endPage found.size) (holds copy) (.page ⟨vpn, huser⟩) =
      none := by
    rw [own, holds_page, hnone, ite_eq_left_iff]
    exact fun _ => rfl
  simp only [copyOnePage, ensures_bind]
  apply (ensures_space_found hnow).mpr
  rw [hlookup]
  dsimp only
  rw [hentry, if_pos hvalid]
  simp only [ensures_bind]
  refine ensures_alloc.mpr
    ⟨fun hfree => hprogress.standing.kept.starved hfree hwanted hempty, ?_⟩
  intro frame rest hfree
  simp only [copyPage, ensures_modify]
  have hlift : Standing (inHand (Lent first.free.toFinset
      (endPage found.size)) ⟨vpn, huser⟩ frame) child
      { Memory.taken memory frame rest with
        bytes := update (Memory.taken memory frame rest).bytes frame
          ((Memory.taken memory frame rest).bytes pte.ppn) } copy := by
    refine ⟨hprogress.standing.spaces, ?_, hprogress.standing.formed, hprogress.standing.leafy⟩
    exact (hprogress.standing.kept.take hfree hwanted hempty
      (own_update_page (by dsimp only; omega))).congr rfl
  have hself : own (endPage found.size) (update (holds copy)
      (.page ⟨vpn, huser⟩) (some frame)) (.page ⟨vpn, huser⟩) = some frame := by
    rw [own_update_page (by dsimp only; omega), update_self]
  have hhand : frame ∉ rest := hlift.kept.stocked.apart _ frame hself
  have hspan : vpn ∈ span (endPage found.size) := mem_span.mpr (Or.inr ⟨hlow, by omega⟩)
  apply (ensures_map_inHand (supply_lent _ _) hlift (along_of_span hspan)
    hnone hleaf).imp_returned
  rintro _ next ⟨rfl, changed, hentered⟩
  rw [if_pos rfl]
  have hmem : frame ∈ memory.free := by
    rw [hfree]
    exact List.mem_cons_self
  have hgone : pte.ppn ∉ memory.free := fun h => hheld (hprogress.free _ h)
  refine ⟨rfl, changed, hprogress.enter hentered huser ?_ ?_ ?_ ?_ ?_ ?_⟩
  · refine ⟨now, (hentered.drawn.spaces parent hne).trans hnow, hformed, ?_⟩
    exact fun each heach hundone _ => hsame each heach hundone
  · intro each heach
    rw [hfree]
    exact List.mem_cons_of_mem _ heach
  · intro each heach
    have hother : each ≠ frame := fun h => heach (h ▸ hmem)
    dsimp only [Memory.taken]
    rw [update_of_ne hother, update_of_ne hother]
  · intro other hother
    obtain rfl := Option.some.inj (himage.symm.trans hother)
    refine ⟨rfl, rfl, rfl, ?_⟩
    have hother : pte.ppn ≠ frame := fun h => hgone (h ▸ hmem)
    calc next.bytes frame = update (Memory.taken memory frame rest).bytes frame
            ((Memory.taken memory frame rest).bytes pte.ppn) frame :=
          hentered.drawn.bytes frame hhand
      _ = (Memory.taken memory frame rest).bytes pte.ppn := update_self ..
      _ = memory.bytes pte.ppn := update_of_ne hother ..
      _ = first.bytes pte.ppn := hprogress.bytes _ hheld
  · exact fun h => hhand (hentered.drawn.free _ h)
  · rintro rfl
    have hframe : own (endPage found.size) (update (holds copy)
        (.page ⟨vpn, huser⟩) (some frame)) .trapframe = some frame := by
      rw [own_table (by simp), update_of_ne (by simp)]
      exact hprogress.trapframe
    cases hlift.kept.stocked.sole _ _ _ hself hframe

/-- The loop over the user pages, for a size that is a whole number of pages. -/
theorem ensures_ucopyNocopy (hforkable : Forkable first parent found) (hne : parent ≠ child)
    (hprogress : Progress first parent child found target (· < 0) memory copy)
    (htarget : target ∈ first.free) (haligned : found.size % pgSize = 0) :
    Ensures (ucopyNocopy parent child 0 found.size) memory
      (fun done next => done = true ∧ ∃ changed, Progress first parent child
        found target (· < endPage found.size) next changed)
      (Starved first.free.toFinset (endPage found.size)) := by
  have hpages := endPage_le_guardPage hforkable.fits
  have hcount : guardPage < vpnCount := by decide
  have hsize : found.size + 0 = (0 + endPage found.size) * pgSize := by
    rw [Nat.zero_add, ← pageRoundUp_eq, pageRoundUp]
    rw [show pgSize = 4096 from rfl] at haligned ⊢
    omega
  let before : ℕ → Memory → Prop := fun vpn memory =>
    ∃ copy, Progress first parent child found target (· < vpn) memory copy
  have hfirst : before 0 memory := ⟨copy, hprogress⟩
  rw [ucopyNocopy, untilEnd, hsize, ← Nat.zero_mul pgSize]
  apply (ensures_pagesUntil (vpnCount + 1) (endPage found.size) 0 (by omega) hfirst ?_).imp_returned
  · rintro _ next ⟨rfl, hnext⟩
    rw [Nat.zero_add] at hnext
    exact ⟨rfl, hnext⟩
  · rintro vpn middle - hvpn ⟨copy, hmiddle⟩
    apply (ensures_shareOnePage hforkable hne hmiddle htarget (by omega)
      (lt_irrefl vpn)).imp_returned
    rintro _ next ⟨rfl, changed, hchanged⟩
    exact ⟨rfl, changed, hchanged.congr fun each => by omega⟩

/-- The guard page and the stack. -/
theorem ensures_ucopyStack (hforkable : Forkable first parent found) (hne : parent ≠ child)
    (hprogress : Progress first parent child found target (· < endPage found.size) memory copy) :
    Ensures (ucopyStack parent child) memory
      (fun _ next => ∃ changed, Progress first parent child found target
        (fun vpn => vpn < endPage found.size ∨ guardPage ≤ vpn ∧ vpn < userPages) next changed)
      (Starved first.free.toFinset (endPage found.size)) := by
  have hpages := endPage_le_guardPage hforkable.fits
  have hguard : guardPage + 2 = userPages := rfl
  let before : ℕ → Memory → Prop := fun stop memory =>
    ∃ copy, Progress first parent child found target
      (fun vpn => vpn < endPage found.size ∨ guardPage ≤ vpn ∧ vpn < stop) memory copy
  have hfirst : before guardPage memory := ⟨copy, hprogress.congr fun vpn => by omega⟩
  have hstart : ustackBase - pgSize = guardPage * pgSize := by decide
  have hstop : pgSize + pgSize + guardPage * pgSize = (guardPage + 2) * pgSize := by decide
  rw [ucopyStack, ucopy, untilEnd, hstart, hstop, ensures_bind]
  apply (ensures_pagesUntil (vpnCount + 1) 2 guardPage (by decide) hfirst ?_).imp_returned
  · rintro _ next ⟨rfl, hnext⟩
    exact hnext
  · rintro vpn middle hlow hhigh ⟨copy, hmiddle⟩
    apply (ensures_copyOnePage hforkable hne hmiddle hlow (by omega) (by omega)).imp_returned
    rintro _ next ⟨rfl, changed, hchanged⟩
    exact ⟨rfl, changed, hchanged.congr fun each => by omega⟩

end Pages

/-! ## The whole call -/

section Calls

variable {first memory next : Memory} {parent child : Proc}
variable {found copy : Space} {target : ℕ}

/-- A new process has nothing of its parent yet. -/
theorem progress_created (hforkable : Forkable first parent found) (hne : parent ≠ child)
    (hcreated : Created (Lent first.free.toFinset (endPage found.size)) child first memory copy) :
    ∃ target ∈ first.free, Progress first parent child found target (· < 0) memory copy := by
  obtain ⟨target, hmem, htarget⟩ := hcreated.frame
  refine ⟨target, hmem, ?_, hcreated.standing, htarget, ?_, ?_, ?_,
    hcreated.drawn.free, hcreated.drawn.bytes⟩
  · exact ⟨found, (hcreated.drawn.spaces parent hne).trans hforkable.spaces,
      hforkable.formed, fun _ _ _ => rfl⟩
  · exact fun vpn _ hnever => absurd hnever (Nat.not_lt_zero vpn)
  · exact fun vpn hvpn _ => hcreated.empty vpn hvpn
  · intro vpn hlow hhigh
    obtain rfl | rfl : vpn = userPages ∨ vpn = userPages + 1 := by omega
    · exact hcreated.trapframe
    · exact hcreated.trampoline

/-- All pages have been mapped; the trap frame is copied and the size set. -/
theorem Progress.cloned (hforkable : Forkable first parent found)
    (hprogress : Progress first parent child found target
      (fun vpn => vpn < endPage found.size ∨ guardPage ≤ vpn ∧ vpn < userPages)
      memory copy) {source : ℕ} (hsource : found.trapframe = some source)
    (hheld : source ∉ first.free) (hbytes : next.bytes = update memory.bytes target fun offset =>
      if a0Offset ≤ offset ∧ offset < a0Offset + 8 then 0
      else if offset < trapframeSize then memory.bytes source offset
      else memory.bytes target offset) :
    Cloned first found next { copy with size := found.size } where
  size := rfl
  spanned := by
    have hguard : guardPage + 2 = userPages := rfl
    refine ⟨?_, ?_, ?_, ?_⟩
    · intro vpn hvpn
      constructor
      · intro hsome
        by_contra hbeyond
        rw [hprogress.empty vpn (by omega) (by omega)] at hsome
        cases hsome
      · intro hbelow
        obtain ⟨pte, himage⟩ := Option.isSome_iff_exists.mp
          ((hforkable.spanned.user vpn hvpn).mpr hbelow)
        obtain ⟨entry, hentry, -⟩ := hprogress.reads vpn (by omega) (Or.inl hbelow) pte himage
        rw [hentry]
        rfl
    · intro vpn hlow hhigh
      obtain ⟨pte, himage⟩ := Option.isSome_iff_exists.mp (hforkable.spanned.stack vpn hlow hhigh)
      obtain ⟨entry, hentry, -⟩ :=
        hprogress.reads vpn (by omega) (Or.inr ⟨hlow, by omega⟩) pte himage
      rw [hentry]
      rfl
    · exact hprogress.upper _ (le_refl _) (by omega)
    · exact hprogress.upper _ (by omega) (by omega)
  reads := by
    intro vpn hvpn pte himage
    have hsome : (image found.table vpn).isSome = true := by
      rw [himage]
      rfl
    have hwhere : vpn < endPage found.size ∨ guardPage ≤ vpn ∧ vpn < userPages := by
      by_cases hbelow : vpn < guardPage
      · exact Or.inl ((hforkable.spanned.user vpn hbelow).mp hsome)
      · exact Or.inr ⟨by omega, hvpn⟩
    obtain ⟨entry, hentry, halike, -, hother⟩ := hprogress.reads vpn hvpn hwhere pte himage
    refine ⟨entry, hentry, halike.read, halike.execute, halike.user, ?_⟩
    rw [hbytes, update_of_ne hother]
    exact halike.bytes
  trapframe := by
    refine ⟨source, target, hsource, hprogress.trapframe, ?_⟩
    intro offset hoffset
    rw [hbytes, update_self, if_pos hoffset, hprogress.bytes source hheld]

/-- `fork` of a process whose size is a whole number of pages. -/
theorem ensures_fork (hforkable : Forkable first parent found)
    (hne : parent ≠ child) (haligned : found.size % pgSize = 0) :
    Ensures (fork parent child) first (fun _ next => ∃ copy,
      Standing (Lent first.free.toFinset (endPage found.size)) child next copy ∧
        Cloned first found next copy) (Starved first.free.toFinset (endPage found.size)) := by
  obtain ⟨source, hsource, hheld⟩ := hforkable.trapframe
  have hsupply := supply_lent first.free.toFinset (endPage found.size)
  simp only [fork, ensures_bind]
  apply (ensures_allocProc hsupply (lent_nothing hforkable.nodup)
    (by simp [needed]) (by simp [needed]) ?_).imp_returned
  · rintro _ created ⟨fresh, hcreated⟩
    obtain ⟨target, hmem, hprogress⟩ := progress_created hforkable hne hcreated
    apply (ensures_space_found ((hcreated.drawn.spaces parent hne).trans hforkable.spaces)).mpr
    apply (ensures_ucopyNocopy hforkable hne hprogress hmem haligned).imp_returned
    rintro _ shared ⟨rfl, between, hbetween⟩
    rw [if_pos rfl]
    simp only [ensures_bind]
    apply (ensures_ucopyStack hforkable hne hbetween).imp_returned
    rintro _ last ⟨copy, hlast⟩
    rw [hsource]
    apply (ensures_space_found hlast.standing.spaces).mpr
    rw [hlast.trapframe]
    have hstanding := hlast.standing
    have hwritten : ∀ bytes, Standing (Lent first.free.toFinset
        (endPage found.size)) child { last with bytes := bytes } copy :=
      fun bytes => ⟨hstanding.spaces, hstanding.kept.congr rfl, hstanding.formed, hstanding.leafy⟩
    simp only [unwrap, copyTrapframe, ensures_pure, ensures_modify]
    apply ensures_setSize (hwritten _).spaces
    exact ⟨_, standing_resize hsupply.spaces (hwritten _) found.size,
      hlast.cloned hforkable hsource hheld rfl⟩
  · intro vpn hlow hhigh
    have hguard : guardPage + 2 = userPages := rfl
    exact along_of_span (mem_span.mpr (Or.inr ⟨by omega, hhigh⟩))

/-- With any other size the loop over the user pages does not end by itself. -/
theorem ensures_fork_never (hforkable : Forkable first parent found)
    (hne : parent ≠ child) (hunaligned : found.size % pgSize ≠ 0) :
    Ensures (fork parent child) first (fun _ _ => False) fun _ _ => True := by
  have hsupply := supply_lent first.free.toFinset (endPage found.size)
  have halong : ∀ vpn, userPages ≤ vpn → vpn < userPages + 2 →
      Along (· ∈ needed (endPage found.size)) (vpn * pgSize) := by
    intro vpn hlow hhigh
    have hguard : guardPage + 2 = userPages := rfl
    exact along_of_span (mem_span.mpr (Or.inr ⟨by omega, hhigh⟩))
  simp only [fork, ensures_bind]
  apply (ensures_allocProc hsupply (lent_nothing hforkable.nodup)
    (by simp [needed]) (by simp [needed]) halong).imp _ fun _ _ _ => trivial
  rintro _ created ⟨fresh, hcreated⟩
  apply (ensures_space_found ((hcreated.drawn.spaces parent hne).trans hforkable.spaces)).mpr
  apply (ensures_pagesUntil_never (vpnCount + 1) 0 created ?_).imp_returned
  · rintro _ next rfl
    trivial
  · rw [Nat.zero_mod, Nat.add_zero]
    exact hunaligned.symm

/-- A child that has all its pages holds a page for everything it needs one
for. -/
theorem held_of_needed {total : Finset ℕ} {pages : ℕ} {piece : Piece}
    (hstanding : Standing (Lent total pages) child next copy)
    (hspanned : Spanned copy.table pages) (hpages : pages ≤ guardPage)
    (htrapframe : copy.trapframe = some target) (hpiece : piece ∈ needed pages) :
    (own pages (holds copy) piece).isSome = true := by
  have hguard : guardPage + 2 = userPages := rfl
  have hstack : ∀ vpn (huser : vpn < userPages), guardPage ≤ vpn →
      (own pages (holds copy) (.page ⟨vpn, huser⟩)).isSome = true := by
    intro vpn huser hlow
    obtain ⟨pte, himage⟩ := Option.isSome_iff_exists.mp (hspanned.stack vpn hlow (by omega))
    rw [own, if_neg (by dsimp only; omega), holds_page, himage]
    rfl
  have hmapped : ∀ vpn ∈ span pages, (image copy.table vpn).isSome = true := by
    intro vpn hvpn
    rcases mem_span.mp hvpn with hbelow | ⟨hlow, hhigh⟩
    · exact (hspanned.user vpn (by omega)).mpr hbelow
    · by_cases huser : vpn < userPages
      · exact hspanned.stack vpn hlow (by omega)
      · obtain rfl | rfl : vpn = userPages ∨ vpn = userPages + 1 := by omega
        · exact hspanned.trapframe
        · exact hspanned.trampoline
  rcases Finset.mem_union.mp hpiece with hown | htable
  · simp only [Finset.mem_insert, Finset.mem_singleton] at hown
    obtain rfl | rfl | rfl | rfl := hown
    · rfl
    · exact Option.isSome_iff_exists.mpr ⟨target, htrapframe⟩
    · exact hstack _ _ (le_refl _)
    · exact hstack _ _ (Nat.le_succ _)
  · obtain ⟨vpn, hvpn, hmem⟩ := Finset.mem_biUnion.mp htable
    obtain ⟨pte, himage⟩ := Option.isSome_iff_exists.mp (hmapped vpn hvpn)
    obtain ⟨-, hleaf, hvalid⟩ := leaf_of_image himage
    have hbottom := hstanding.formed.bottom_under _ _
      (pageNum (vpn * pgSize) 0) ((congrArg Pte.v hleaf).trans hvalid)
    have hmid := (hstanding.formed.mid_table _ _ hbottom).2
    simp only [tables, Finset.mem_insert, Finset.mem_singleton] at hmem
    obtain rfl | rfl := hmem
    · exact Option.isSome_iff_exists.mpr ⟨_, target_eq_some hmid⟩
    · exact Option.isSome_iff_exists.mpr ⟨_, target_eq_some hbottom⟩

/-- `fork` works for the sizes that are whole numbers of pages, if there are
enough pages for the child. -/
theorem fork_works_iff (hforkable : Forkable memory parent found)
    (hslot : memory.spaces child = none) :
    Works memory parent child found ↔ found.size % pgSize = 0 ∧
      (needed (endPage found.size)).card ≤ memory.free.length := by
  have hne : parent ≠ child := by
    rintro rfl
    cases hslot.symm.trans hforkable.spaces
  have hcard : memory.free.toFinset.card = memory.free.length :=
    List.toFinset_card_of_nodup hforkable.nodup
  constructor
  · rintro ⟨next, copy, hnext, hcopy, hcloned⟩
    unfold outcome at hnext
    split at hnext
    · next value middle hrun =>
        cases hnext
        have haligned : found.size % pgSize = 0 := by
          by_contra hunaligned
          exact (ensures_fork_never hforkable hne hunaligned).eq_ok hrun
        refine ⟨haligned, ?_⟩
        obtain ⟨other, hstanding, hclone⟩ := (ensures_fork hforkable hne haligned).eq_ok hrun
        obtain ⟨-, target, -, htarget, -⟩ := hclone.trapframe
        rw [← hcard]
        apply hstanding.kept.stocked.card_le
        intro piece hpiece
        exact held_of_needed hstanding hclone.spanned
          (endPage_le_guardPage hforkable.fits) htarget hpiece
    · cases hnext
  · rintro ⟨haligned, henough⟩
    have hfork := ensures_fork hforkable hne haligned
    cases hrun : fork parent child memory with
    | ok value next =>
      obtain ⟨copy, hstanding, hcloned⟩ := hfork.eq_ok hrun
      refine ⟨next, copy, ?_, hstanding.spaces, hcloned⟩
      rw [outcome, hrun]
    | error cause next =>
      have hstarved := (hfork.eq_error hrun).2
      omega

/-! ## Processes that grow -/

/-- An address space that shares no page can be forked. -/
theorem forkable_of_laid {total : Finset ℕ}
    (hlaid : Laid total parent memory found) (hreadable : Readable found) :
    Forkable memory parent found where
  spaces := hlaid.standing.spaces
  formed := hlaid.standing.formed
  spanned := hlaid.spanned
  fits := hlaid.fits
  usable := by
    intro vpn hvpn pte himage
    have hheld : holds found (.page ⟨vpn, hvpn⟩) = some pte.ppn := by
      rw [holds_page, himage]
      rfl
    refine ⟨?_, hlaid.standing.kept.inRange hheld,
      not_free_of_image (provision_backed total fun _ => True) hlaid.standing hvpn himage⟩
    rw [hreadable.read vpn hvpn pte himage]
    rfl
  trapframe := by
    obtain ⟨frame, hframe⟩ := Option.isSome_iff_exists.mp hreadable.trapframe
    exact ⟨frame, hframe, hlaid.standing.kept.stocked.apart .trapframe frame hframe⟩
  nodup := hlaid.standing.kept.stocked.nodup

/-- Over any sequence of `grow_proc` the process keeps the form that `fork`
expects. -/
theorem run_forkable {total : Finset ℕ} {last : Memory}
    {record : List (Memory × ℤ)} (hlaid : Laid total parent first found)
    (hreadable : Readable found) (hrun : Run (step parent) first record last)
    (hallowed : ∀ entry ∈ record, Allowed parent entry.1 entry.2) :
    ∃ after, Forkable last parent after := by
  have hkeep : ∀ memory count next, (∃ found, Laid total parent memory found ∧ Readable found) →
      Allowed parent memory count → step parent memory count = some next →
        ∃ found, Laid total parent next found ∧ Readable found := by
    rintro memory count next ⟨found, hlaid, hreadable⟩ hallowed hstep
    obtain ⟨changed, -, htrapframe, hchanged, hresized⟩ := hlaid.step hallowed hstep
    exact ⟨changed, hchanged, hresized.readable hlaid hchanged htrapframe hreadable⟩
  obtain ⟨⟨after, hafter, hread⟩, -⟩ := hrun.invariant hkeep ⟨found, hlaid, hreadable⟩ hallowed
  exact ⟨after, forkable_of_laid hafter hread⟩

/-- A new process has been resized by calls of `grow_proc`, and slot 1 is free
with enough pages for a child. -/
structure Reached (counts : List ℤ) (memory : Memory) (found : Space) :
    Prop where
  run : ∃ created record, outcome (setUp 0) (boot 64) = some created ∧
    Run (step 0) created record memory ∧ record.map Prod.snd = counts
  forkable : Forkable memory 0 found
  slot : memory.spaces 1 = none
  enough : (needed (endPage found.size)).card ≤ memory.free.length

/-- A test of the state that calls of `grow_proc` lead to. -/
def passes (counts : List ℤ) (test : Memory → Space → Bool) : Bool :=
  (outcome (setUp 0) (boot 64)).any fun created =>
    (counts.foldlM (guarded (Allowed 0) (step 0)) created).any fun memory =>
      (memory.spaces 0).any fun found => (memory.spaces 1).isNone &&
        decide ((needed (endPage found.size)).card ≤ memory.free.length) && test memory found

theorem reached_of_passes {counts : List ℤ} {test : Memory → Space → Bool}
    (hpasses : passes counts test = true) :
    ∃ memory found, Reached counts memory found ∧ test memory found = true := by
  obtain ⟨created, hcreated, hsteps⟩ := (Option.any_eq_true _ _).mp hpasses
  obtain ⟨memory, hfold, hspaces⟩ := (Option.any_eq_true _ _).mp hsteps
  obtain ⟨found, hfound, htests⟩ := (Option.any_eq_true _ _).mp hspaces
  obtain ⟨record, hrun, hactions, hallowed⟩ := Run.of_foldlM_admitted hfold
  have hsetUp : Ensures (setUp 0) (boot 64) _ Exhausted :=
    ensures_setUp (backed_boot 64 (by decide))
  obtain ⟨before, hlaid, hreadable⟩ : ∃ before,
      Laid (boot 64).free.toFinset 0 created before ∧ Readable before := by
    unfold outcome at hcreated
    split at hcreated
    · next value middle hresult =>
        cases hcreated
        obtain ⟨-, before, -, hbefore⟩ := hsetUp.eq_ok hresult
        exact ⟨before, hbefore⟩
    · cases hcreated
  obtain ⟨after, hafter⟩ := run_forkable hlaid hreadable hrun hallowed
  obtain rfl := Option.some.inj (hafter.spaces.symm.trans hfound)
  simp only [Bool.and_eq_true, Option.isNone_iff_eq_none,
    decide_eq_true_eq] at htests
  exact ⟨memory, after, ⟨⟨created, record, hcreated, hrun, hactions⟩, hafter,
    htests.1.1, htests.1.2⟩, htests.2⟩

/-- A process that has grown to two pages and shrunk to one is forked. -/
theorem fork_works_iff_page : ∃ memory found,
    Reached [5000, 3192, -4096] memory found ∧ Works memory 0 1 found := by
  have hpasses : passes [5000, 3192, -4096] (fun _ found =>
      found.size % pgSize = 0) = true := by decide +kernel
  obtain ⟨memory, found, hreached, haligned⟩ := reached_of_passes hpasses
  exact ⟨memory, found, hreached, (fork_works_iff hreached.forkable hreached.slot).mpr
      ⟨of_decide_eq_true haligned, hreached.enough⟩⟩

/-- A process that has grown by 5000 bytes is not. -/
theorem not_fork_works : ∃ memory found, Reached [5000] memory found ∧ ¬Works memory 0 1 found := by
  have hpasses : passes [5000] (fun memory _ =>
      (outcome (fork 0 1) memory).isNone) = true := by decide +kernel
  obtain ⟨memory, found, hreached, hpanics⟩ := reached_of_passes hpasses
  refine ⟨memory, found, hreached, ?_⟩
  rintro ⟨next, copy, hnext, -⟩
  rw [hnext] at hpanics
  cases hpanics

end Calls

end RxOs.Forking
