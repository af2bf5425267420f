import RxOs.Memory.Backing
import RxOs.Memory.ProcessPages

/-!
# Creating, growing and taking down an address space

What `alloc_proc` creates, and what adding zeroed pages and giving all pages
back do to an address space whose pages nobody else has.
-/

namespace RxOs.GrowShrink

open Function Exec Stock PageTable Frames AddressSpace Holdings Releasing
open Sharing ProcessPages Backing
open Kernel (Proc)

/-! ## A new address space -/

/-- What `alloc_proc` leaves: a page for the trap frame, and a table with the two
pages that the kernel maps in every table. -/
structure Created (keeps : Memory → (Piece → Option ℕ) → Prop) (proc : Proc)
    (memory next : Memory) (found : Space) : Prop where
  standing : Standing keeps proc next found
  drawn : Drawn proc memory next
  size : found.size = 0
  frame : ∃ frame ∈ memory.free, found.trapframe = some frame
  trapframe : (image found.table userPages).isSome = true
  trampoline : (image found.table (userPages + 1)).isSome = true
  empty : ∀ vpn < userPages, image found.table vpn = none

section Creating

variable {keeps : Memory → (Piece → Option ℕ) → Prop} {bound : Piece → Prop}
variable {stopped : Panic → Memory → Prop} {proc : Proc} {memory : Memory}

theorem image_empty (vpn : ℕ) : image Table.empty vpn = none :=
  if_neg fun hvalid => nomatch hvalid.2

/-- `alloc_proc`. -/
theorem ensures_allocProc (hsupply : Supply keeps bound stopped)
    (hkept : keeps memory fun _ => none) (hframe : bound .trapframe) (hroot : bound .root)
    (halong : ∀ vpn, userPages ≤ vpn → vpn < userPages + 2 → Along bound (vpn * pgSize)) :
    Ensures (allocProc proc) memory (fun _ next => ∃ found, Created keeps proc memory next found)
      stopped := by
  simp only [allocProc, ensures_bind]
  refine ensures_alloc.mpr ⟨fun hfree => hsupply.starved _ _ .trapframe hkept
    hfree (by simp) hframe rfl, ?_⟩
  intro frame after hfree
  have hfirst := hsupply.take _ _ .trapframe _ _ hkept hfree (by simp) hframe
    rfl
  have hnone : update (fun _ => none) Piece.trapframe (some frame) .root =
      none := update_of_ne (by simp) _ _
  refine ensures_alloc.mpr ⟨fun hempty => hsupply.starved _ _ .root hfirst
    hempty (by simp) hroot hnone, ?_⟩
  intro root rest hafter
  have hsecond := hsupply.take _ _ .root _ _ hfirst hafter (by simp) hroot hnone
  have hholds : holds ⟨0, root, some frame, Table.empty⟩ =
      update (update (fun _ => none) Piece.trapframe (some frame)) Piece.root (some root) := by
    funext piece
    cases piece with
    | _ => rfl
  have hcreated : Standing keeps proc
      { Memory.taken (Memory.taken memory frame after) root rest with
        spaces := update memory.spaces proc (some ⟨0, root, some frame, Table.empty⟩) }
      ⟨0, root, some frame, Table.empty⟩ := by
    refine ⟨update_self .., ?_, Table.formed_empty, leafy_empty⟩
    rw [hholds]
    exact hsupply.spaces _ _ _ hsecond
  have hdrawn : Drawn proc memory
      { Memory.taken (Memory.taken memory frame after) root rest with
        spaces := update memory.spaces proc (some ⟨0, root, some frame, Table.empty⟩) } :=
    (drawn_taken hfree fun _ _ => rfl).trans (drawn_taken hafter
      fun other hother => update_of_ne hother ..)
  have htrampoline : trampoline = (userPages + 1) * pgSize := by decide
  have htrapframe : PageTable.trapframe = userPages * pgSize := by decide
  rw [htrampoline, htrapframe]
  change Ensures (map proc ((userPages + 1) * pgSize) trampolinePage pgSize
    Pte.permRX) { Memory.taken (Memory.taken memory frame after) root rest with
      spaces := update memory.spaces proc (some ⟨0, root, some frame, Table.empty⟩) } _ _
  refine (ensures_map_upper hsupply hcreated (by decide) (by decide)
    (halong _ (by omega) (by omega)) (image_empty _) rfl).imp_returned ?_
  rintro _ middle ⟨rfl, between, hbetween⟩
  have hempty : image between.table userPages = none := by
    rw [hbetween.image, update_of_ne (by decide)]
    exact image_empty _
  refine (ensures_map_upper hsupply hbetween.standing (le_refl _) (by decide)
    (halong _ (by omega) (by omega)) hempty rfl).imp_returned ?_
  rintro _ next ⟨rfl, found, hfound⟩
  have hsame : found = { (⟨0, root, some frame, Table.empty⟩ : Space) with
      table := found.table } := by rw [hfound.same, hbetween.same]
  refine ⟨found, hfound.standing,
    (hdrawn.trans hbetween.drawn).trans hfound.drawn, ?_, ⟨frame, ?_, ?_⟩, ?_, ?_, ?_⟩
  · rw [hsame]
  · rw [hfree]
    exact List.mem_cons_self
  · rw [hsame]
  · rw [hfound.image, update_self]
    rfl
  · rw [hfound.image, update_of_ne (by decide), hbetween.image, update_self]
    rfl
  · intro vpn hvpn
    rw [hfound.image, update_of_ne (by omega), hbetween.image, update_of_ne (by omega)]
    exact image_empty vpn

end Creating

/-! ## Adding pages -/

/-- Zeroed user pages have been mapped in a range. -/
structure Grown (keeps : Memory → (Piece → Option ℕ) → Prop) (proc : Proc)
    (memory : Memory) (found : Space) (first pages : ℕ) (next : Memory)
    (changed : Space) : Prop where
  standing : Standing keeps proc next changed
  drawn : Drawn proc memory next
  same : changed = { found with table := changed.table }
  kept : ∀ vpn, ¬(first ≤ vpn ∧ vpn < first + pages) →
    image changed.table vpn = image found.table vpn
  fresh : ∀ vpn, first ≤ vpn → vpn < first + pages →
    ∃ frame, image changed.table vpn = some (Pte.permRWXU.withPerm frame) ∧
      next.bytes frame = fun _ => 0

def Roomy (bound : Piece → Prop) (vpn : ℕ) : Prop :=
  (∀ hvpn : vpn < userPages, bound (.page ⟨vpn, hvpn⟩)) ∧ Along bound (vpn * pgSize)

section Adding

variable {keeps : Memory → (Piece → Option ℕ) → Prop} {bound : Piece → Prop}
variable {stopped : Panic → Memory → Prop} {proc : Proc}
variable {memory next : Memory} {found changed : Space}
variable {first pages vpn frame : ℕ} {rest : List ℕ}

theorem not_free_of_image (hprovision : Provision keeps bound stopped)
    (hstanding : Standing keeps proc memory found) (hvpn : vpn < userPages) {pte : Pte}
    (himage : image found.table vpn = some pte) : pte.ppn ∉ memory.free := by
  apply hprovision.apart _ _ (.page ⟨vpn, hvpn⟩) pte.ppn hstanding.kept
  rw [holds_page, himage]
  rfl

theorem standing_lift (hprovision : Provision keeps bound stopped)
    (hstanding : Standing keeps proc memory found)
    (hfree : memory.free = frame :: rest) {hvpn : vpn < userPages}
    (hbound : bound (.page ⟨vpn, hvpn⟩)) (hnone : image found.table vpn = none) :
    Standing (inHand keeps ⟨vpn, hvpn⟩ frame) proc (Memory.taken memory frame rest) found where
  spaces := hstanding.spaces
  kept := by
    apply hprovision.takePage _ _ _ _ _ hstanding.kept hfree hbound
    rw [holds_page, hnone]
    rfl
  formed := hstanding.formed
  leafy := hstanding.leafy

/-- Take a page and map it at a user page. -/
theorem ensures_alloc_map {perm : Pte} {Value : Type}
    {rest : ℕ → Bool → MemM Value} {returned : Value → Memory → Prop}
    (hprovision : Provision keeps bound stopped) (hstanding : Standing keeps proc memory found)
    (hvpn : vpn < userPages) (hroomy : Roomy bound vpn)
    (hnone : image found.table vpn = none) (hleaf : perm.isLeaf = true)
    (hrest : ∀ frame next changed, Entered keeps proc memory found vpn
      (perm.withPerm frame) next changed → next.bytes frame = (fun _ => 0) →
        Ensures (rest frame true) next returned stopped) :
    Ensures (do
      let frame ← alloc
      let mapped ← map proc (vpn * pgSize) frame pgSize perm
      rest frame mapped) memory returned stopped := by
  have hempty : holds found (.page ⟨vpn, hvpn⟩) = none := by
    rw [holds_page, hnone]
    rfl
  rw [ensures_bind]
  refine ensures_alloc.mpr ⟨fun hfree => hprovision.starvedPage _ _ _
    hstanding.kept hfree (hroomy.1 hvpn) hempty, ?_⟩
  intro frame free hfree
  have hlift := standing_lift hprovision hstanding hfree (hroomy.1 hvpn) hnone
  rw [ensures_bind]
  apply (ensures_map_inHand hprovision.toSupply hlift hroomy.2 hnone hleaf).imp_returned
  rintro _ next ⟨rfl, changed, hentered⟩
  have hheld : frame ∉ (Memory.taken memory frame free).free :=
    hprovision.apart _ _ (.page ⟨vpn, hvpn⟩) frame hlift.kept (update_self ..)
  apply hrest frame next changed
  · refine ⟨hentered.standing, ?_, hentered.same, hentered.image⟩
    exact (drawn_taken hfree fun _ _ => rfl).trans hentered.drawn
  · rw [hentered.drawn.bytes frame hheld]
    exact update_self ..

/-- The loop of `ualloc`. -/
theorem ensures_uallocPages (hprovision : Provision keeps bound stopped)
    (start : ℕ) (hstanding : Standing keeps proc memory found) (hrange : first + pages ≤ userPages)
    (hroomy : ∀ vpn, first ≤ vpn → vpn < first + pages → Roomy bound vpn)
    (hnone : ∀ vpn, first ≤ vpn → vpn < first + pages → image found.table vpn = none) :
    Ensures (uallocPages proc start pages (first * pgSize)) memory
      (fun done next => done = true ∧ ∃ changed,
        Grown keeps proc memory found first pages next changed)
      stopped := by
  induction pages generalizing first memory found with
  | zero =>
    exact ⟨rfl, found, hstanding, Drawn.refl _ _, rfl, fun _ _ => rfl,
      fun vpn hlow hhigh => by omega⟩
  | succ pages ih =>
    have hfirst : first < userPages := by omega
    apply ensures_alloc_map hprovision hstanding hfirst (hroomy first (le_refl _) (by omega))
      (hnone first (le_refl _) (by omega)) rfl
    intro frame middle between hentered hzero
    rw [if_pos rfl, addPage, ← Nat.succ_mul]
    have hself : image between.table first = some (Pte.permRWXU.withPerm frame) := by
      rw [hentered.image, update_self]
    have hothers : ∀ vpn, vpn ≠ first → image between.table vpn = image found.table vpn := by
      intro vpn hvpn
      rw [hentered.image, update_of_ne hvpn]
    refine (ih hentered.standing (by omega) ?_ ?_).imp_returned ?_
    · intro vpn hlow hhigh
      exact hroomy vpn (by omega) (by omega)
    · intro vpn hlow hhigh
      rw [hothers vpn (by omega)]
      exact hnone vpn (by omega) (by omega)
    · rintro _ last ⟨rfl, changed, hgrown⟩
      refine ⟨rfl, changed, hgrown.standing, hentered.drawn.trans hgrown.drawn, ?_, ?_, ?_⟩
      · rw [hgrown.same, hentered.same]
      · intro vpn hvpn
        rw [hgrown.kept vpn (by omega), hothers vpn (by omega)]
      · intro vpn hlow hhigh
        by_cases hvpn : vpn = first
        · subst hvpn
          refine ⟨frame, ?_, ?_⟩
          · rw [hgrown.kept vpn (by omega), hself]
          · rw [hgrown.drawn.bytes frame, hzero]
            exact not_free_of_image hprovision hentered.standing hfirst hself
        · exact hgrown.fresh vpn (by omega) (by omega)

theorem pages_of_growth {less more : ℕ} (hle : less ≤ more) :
    (more - pageRoundUp less + pgSize - 1) / pgSize = endPage more - endPage less := by
  unfold pageRoundUp endPage
  rw [show pgSize = 4096 from rfl]
  omega

theorem endPage_mono {less more : ℕ} (hle : less ≤ more) : endPage less ≤ endPage more := by
  unfold endPage
  rw [show pgSize = 4096 from rfl]
  omega

theorem pageRoundUp_eq (size : ℕ) : pageRoundUp size = endPage size * pgSize :=
  rfl

/-- `ualloc` with a larger size. -/
theorem ensures_ualloc {less more : ℕ} (hprovision : Provision keeps bound stopped)
    (hstanding : Standing keeps proc memory found) (hmore : less ≤ more)
    (hrange : endPage more ≤ userPages) (hroomy : ∀ vpn, endPage less ≤ vpn → vpn < endPage more →
      Roomy bound vpn) (hnone : ∀ vpn, endPage less ≤ vpn → vpn < endPage more →
      image found.table vpn = none) :
    Ensures (ualloc proc less more) memory (fun result next =>
      result = some more ∧ ∃ changed, Grown keeps proc memory found
        (endPage less) (endPage more - endPage less) next changed)
      stopped := by
  have hmono := endPage_mono hmore
  simp only [ualloc, if_neg (Nat.not_lt.mpr hmore), ensures_bind]
  rw [pages_of_growth hmore, pageRoundUp_eq]
  refine (ensures_uallocPages hprovision _ hstanding (by omega) ?_ ?_).imp_returned ?_
  · intro vpn hlow hhigh
    exact hroomy vpn hlow (by omega)
  · intro vpn hlow hhigh
    exact hnone vpn hlow (by omega)
  · rintro _ next ⟨rfl, hgrown⟩
    exact ⟨rfl, hgrown⟩

structure Stacked (keeps : Memory → (Piece → Option ℕ) → Prop) (proc : Proc)
    (memory : Memory) (found : Space) (next : Memory) (changed : Space) :
    Prop where
  standing : Standing keeps proc next changed
  drawn : Drawn proc memory next
  same : changed = { found with table := changed.table }
  kept : ∀ vpn, vpn ≠ guardPage → vpn ≠ guardPage + 1 →
    image changed.table vpn = image found.table vpn
  guard : ∃ frame, image changed.table guardPage = some (Pte.permR.withPerm frame)
  stack : ∃ frame, image changed.table (guardPage + 1) = some (Pte.permRWU.withPerm frame)

/-- `ualloc_stack`. -/
theorem ensures_uallocStack (hprovision : Provision keeps bound stopped)
    (hstanding : Standing keeps proc memory found)
    (hroomy : ∀ vpn, guardPage ≤ vpn → vpn < userPages → Roomy bound vpn)
    (hnone : ∀ vpn, guardPage ≤ vpn → vpn < userPages → image found.table vpn = none) :
    Ensures (uallocStack proc) memory (fun done next => done = true ∧
      ∃ changed, Stacked keeps proc memory found next changed) stopped := by
  have hguard : guardPage + 2 = userPages := rfl
  have hstack : ustackBase = (guardPage + 1) * pgSize := by decide
  have hbelow : ustackBase - pgSize = guardPage * pgSize := by decide
  unfold uallocStack
  rw [hbelow, hstack]
  apply ensures_alloc_map hprovision hstanding (by omega)
    (hroomy _ (by omega) (by omega)) (hnone _ (by omega) (by omega)) rfl
  intro stack middle between hbetween _
  rw [if_pos rfl]
  have hempty : image between.table guardPage = none := by
    rw [hbetween.image, update_of_ne (by omega)]
    exact hnone _ (by omega) (by omega)
  apply ensures_alloc_map hprovision hbetween.standing (by omega)
    (hroomy _ (by omega) (by omega)) hempty rfl
  intro guard next changed hchanged _
  rw [if_pos rfl]
  refine ⟨rfl, changed, hchanged.standing, hbetween.drawn.trans hchanged.drawn,
    ?_, ?_, ⟨guard, ?_⟩, ⟨stack, ?_⟩⟩
  · rw [hchanged.same, hbetween.same]
  · intro vpn hlow hhigh
    rw [hchanged.image, update_of_ne hlow, hbetween.image, update_of_ne hhigh]
  · rw [hchanged.image, update_self]
  · rw [hchanged.image, update_of_ne (by omega), hbetween.image, update_self]

end Adding

/-! ## Giving everything back -/

/-- The user pages below `pages`, the guard page, the stack, the trap frame and
the trampoline are mapped. -/
structure Spanned (table : Table) (pages : ℕ) : Prop where
  user : ∀ vpn < guardPage, (image table vpn).isSome = true ↔ vpn < pages
  stack : ∀ vpn, guardPage ≤ vpn → vpn < guardPage + 2 → (image table vpn).isSome = true
  trapframe : (image table userPages).isSome = true
  trampoline : (image table (userPages + 1)).isSome = true

/-- `proc_free_pagetable`, and the drop of the table. -/
def takeDown (proc : Proc) : MemM Unit := do
  let found ← space proc
  procFreePagetable proc found.size
  let found ← space proc
  dropTable found.table
  dealloc found.root

theorem endPage_eq_zero {size : ℕ} : endPage size = 0 ↔ size = 0 := by
  unfold endPage
  rw [show pgSize = 4096 from rfl]
  omega

section Dropping

variable {keeps : Memory → (Piece → Option ℕ) → Prop}
variable {stopped : Panic → Memory → Prop} {proc : Proc}
variable {memory next : Memory} {found changed : Space} {size : ℕ}

theorem ensures_ufree (hbooks : Books keeps stopped) (hstanding : Standing keeps proc memory found)
    (hsize : endPage size ≤ userPages)
    (hsome : ∀ vpn < endPage size, (image found.table vpn).isSome = true) :
    Ensures (ufree proc size) memory (fun _ next => ∃ changed,
      Cleared keeps proc memory found (· < endPage size) next changed)
      stopped := by
  unfold ufree
  refine ensures_ite.mpr ⟨fun _ => ?_, fun hzero => ?_⟩
  · have hall : ∀ vpn, 0 ≤ vpn → vpn < 0 + endPage size → (image found.table vpn).isSome = true :=
      fun vpn _ hvpn => hsome vpn (by omega)
    have hfree := ensures_uunmap hbooks hstanding (by omega) hall
    rw [pageRoundUp_eq, page_div]
    rw [Nat.zero_mul] at hfree
    refine hfree.imp_returned ?_
    rintro _ next ⟨changed, hcleared⟩
    exact ⟨changed, hcleared.congr fun vpn => by omega⟩
  · have hempty : endPage size = 0 := endPage_eq_zero.mpr (by omega)
    exact ⟨found, hstanding.cleared fun vpn => by omega⟩

/-- Everything the user sees is unmapped. -/
theorem ensures_procFreePagetable (hbooks : Books keeps stopped)
    (hstanding : Standing keeps proc memory found) (hspanned : Spanned found.table (endPage size))
    (hsize : endPage size ≤ guardPage) :
    Ensures (procFreePagetable proc size) memory (fun _ next => ∃ changed,
      Cleared keeps proc memory found (· < userPages) next changed)
      stopped := by
  have hguard : guardPage + 2 = userPages := rfl
  simp only [procFreePagetable, ufreeStack, ensures_bind]
  have hstack : ustackBase - pgSize = guardPage * pgSize := by decide
  rw [hstack]
  refine (ensures_uunmap hbooks hstanding (by omega)
    fun vpn hlow hhigh => hspanned.stack vpn hlow hhigh).imp_returned ?_
  rintro _ middle ⟨between, hbetween⟩
  have hkept : ∀ vpn, ¬(guardPage ≤ vpn ∧ vpn < guardPage + 2) →
      image between.table vpn = image found.table vpn := hbetween.image
  have htrampoline : trampoline = (userPages + 1) * pgSize := by decide
  have htrapframe : PageTable.trapframe = userPages * pgSize := by decide
  rw [htrampoline, htrapframe]
  refine (ensures_uunmap_keep hbetween.standing (by decide) (by
    rw [hkept _ (by omega)]
    exact hspanned.trampoline)).imp_returned ?_
  rintro _ _ rfl
  refine (ensures_uunmap_keep hbetween.standing (by decide) (by
    rw [hkept _ (by omega)]
    exact hspanned.trapframe)).imp_returned ?_
  rintro _ _ rfl
  refine (ensures_ufree hbooks hbetween.standing (by omega) ?_).imp_returned ?_
  · intro vpn hvpn
    rw [hkept vpn (by omega)]
    exact (hspanned.user vpn (by omega)).mpr hvpn
  · rintro _ last ⟨changed, hchanged⟩
    refine ⟨changed, hchanged.standing, ?_, ?_, ?_,
      hchanged.bytes.trans hbetween.bytes, fun other hother =>
        (hchanged.others other hother).trans (hbetween.others other hother)⟩
    · rw [hchanged.same, hbetween.same]
    · intro vpn hvpn
      by_cases huser : vpn < endPage size
      · exact hchanged.clear vpn huser
      · rw [hchanged.image vpn huser]
        by_cases hupper : guardPage ≤ vpn
        · exact hbetween.clear vpn ⟨hupper, by omega⟩
        · rw [hkept vpn (by omega)]
          exact Option.not_isSome_iff_eq_none.mp fun hsome =>
            huser ((hspanned.user vpn (by omega)).mp hsome)
    · intro vpn hvpn
      rw [hchanged.image vpn (by omega), hkept vpn (by omega)]

/-- After everything is unmapped the drop gives the tables back. -/
theorem ensures_dropRoot (hbooks : Books keeps stopped)
    (hstanding : Standing keeps proc memory found)
    (hempty : ∀ vpn < userPages, image found.table vpn = none) :
    Ensures (do dropTable found.table; dealloc found.root) memory
      (fun _ next => (next.spaces = memory.spaces ∧
        next.kernel = memory.kernel ∧ next.bytes = memory.bytes) ∧
        ∃ kept, keeps next kept ∧ (∀ piece ≠ .trapframe, kept piece = none) ∧
          kept .trapframe = found.trapframe) stopped := by
  have hname : Injective (id : Piece → Piece) := injective_id
  refine (releases_dropRoot hname hbooks.keeper hstanding.formed
    (Or.inl hstanding.leafy) memory (holds found) hstanding.kept fun _ _ => rfl).imp_returned ?_
  rintro _ next ⟨hsame, kept, hkept, hgone, hrest⟩
  refine ⟨hsame, kept, hkept, ?_, ?_⟩
  · intro piece hpiece
    cases piece with
    | root => exact hgone .root (Or.inr rfl)
    | trapframe => exact absurd rfl hpiece
    | mid i => exact hgone (.mid i) (Or.inl ⟨i, Or.inr rfl⟩)
    | bottom i j => exact hgone (.bottom i j) (Or.inl ⟨i, Or.inl ⟨j, rfl⟩⟩)
    | page vpn =>
      rw [hrest (.page vpn), holds_page, hempty vpn vpn.isLt]
      · rfl
      · rintro piece (⟨i, ⟨j, rfl⟩ | rfl⟩ | rfl) heq <;> cases heq
  · rw [hrest .trapframe]
    · rfl
    · rintro piece (⟨i, ⟨j, rfl⟩ | rfl⟩ | rfl) heq <;> cases heq

theorem ensures_takeDown (hbooks : Books keeps stopped)
    (hstanding : Standing keeps proc memory found)
    (hspanned : Spanned found.table (endPage found.size)) (hsize : endPage found.size ≤ guardPage) :
    Ensures (takeDown proc) memory (fun _ next => ∃ kept, keeps next kept ∧
      (∀ piece ≠ .trapframe, kept piece = none) ∧ kept .trapframe = found.trapframe) stopped := by
  simp only [takeDown, ensures_bind]
  refine (ensures_space_found hstanding.spaces).mpr ?_
  refine (ensures_procFreePagetable hbooks hstanding hspanned hsize).imp_returned ?_
  rintro _ middle ⟨changed, hchanged⟩
  refine (ensures_space_found hchanged.standing.spaces).mpr ?_
  have hdrop := ensures_dropRoot hbooks hchanged.standing hchanged.clear
  rw [ensures_bind] at hdrop
  refine hdrop.imp_returned fun _ _ hrest => hrest.imp_returned ?_
  rintro _ next ⟨-, kept, hkept, hnone, htrapframe⟩
  refine ⟨kept, hkept, hnone, ?_⟩
  rw [htrapframe, hchanged.same]

end Dropping

end RxOs.GrowShrink
