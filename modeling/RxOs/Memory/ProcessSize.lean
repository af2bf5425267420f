import RxOs.Memory.CopyOnWrite
import RxOs.Memory.GrowShrink

/-!
# The size of a process

Over any sequence of `grow_proc` the pages below the guard page are those below
the size, new pages are zero, and pages that stay keep their contents.  No page
is lost: `proc_free_pagetable` and the drop of the table give back what the
address space held, each page once.
-/

namespace RxOs.ProcessSize

open Function Exec Stock Transition PageTable Frames AddressSpace Holdings
open Releasing Sharing ProcessPages Backing GrowShrink
open CopyOnWrite (boot outcome)
open Kernel (Proc)

/-! ## One call of `grow_proc` -/

def sizeLimit : ℕ := ustackBase - pgSize

/-- An address space whose pages nobody else has, with user pages below its
size. -/
structure Laid (total : Finset ℕ) (proc : Proc) (memory : Memory)
    (found : Space) : Prop where
  standing : Standing (Backed total) proc memory found
  spanned : Spanned found.table (endPage found.size)
  fits : found.size ≤ sizeLimit

/-- What a change of the size does to the pages: those below both sizes, the
guard page and the stack stay with their contents, and new pages are zero. -/
structure Resized (memory : Memory) (found : Space) (next : Memory)
    (changed : Space) : Prop where
  kept : ∀ vpn < userPages, vpn < endPage changed.size ∨ guardPage ≤ vpn →
    ∀ pte, image found.table vpn = some pte → image changed.table vpn = some pte ∧
        next.bytes pte.ppn = memory.bytes pte.ppn
  fresh : ∀ vpn, endPage found.size ≤ vpn → vpn < endPage changed.size →
    ∃ frame, image changed.table vpn = some (Pte.permRWXU.withPerm frame) ∧
      next.bytes frame = fun _ => 0

/-- User pages can be read, and there is a trap frame. -/
structure Readable (found : Space) : Prop where
  read : ∀ vpn < userPages, ∀ pte, image found.table vpn = some pte → pte.r = true
  trapframe : found.trapframe.isSome = true

section Resizing

variable {total : Finset ℕ} {proc : Proc} {memory next after : Memory}
variable {found changed resized : Space} {size : ℕ} {count : ℤ}

theorem endPage_le_guardPage (hsize : size ≤ sizeLimit) : endPage size ≤ guardPage := by
  have hlimit : sizeLimit = guardPage * pgSize := by decide
  have hguard : guardPage = 67108860 := rfl
  rw [hlimit] at hsize
  unfold endPage
  rw [show pgSize = 4096 from rfl] at hsize ⊢
  omega

/-- Recording the size changes nothing else. -/
theorem standing_resize {keeps : Memory → (Piece → Option ℕ) → Prop}
    (hspaces : ∀ memory held spaces, keeps memory held →
      keeps { memory with spaces := spaces } held)
    (hstanding : Standing keeps proc memory found) (size : ℕ) :
    Standing keeps proc { memory with
      spaces := update memory.spaces proc
        (some { found with size := size }) } { found with size := size } where
  spaces := update_self ..
  kept := by
    have hholds : holds { found with size := size } = holds found := by
      funext piece
      cases piece <;> rfl
    rw [hholds]
    exact hspaces _ _ _ hstanding.kept
  formed := hstanding.formed
  leafy := hstanding.leafy

theorem ensures_setSize {stopped : Panic → Memory → Prop} {returned : Unit → Memory → Prop}
    (hfound : memory.spaces proc = some found)
    (hreturned : returned () { memory with
      spaces := update memory.spaces proc (some { found with size := size }) }) :
    Ensures (setSize proc size) memory returned stopped := by
  simp only [setSize, ensures_bind]
  exact (ensures_space_found hfound).mpr hreturned

theorem Resized.refl (memory : Memory) (found : Space) :
    Resized memory found memory found where
  kept := fun _ _ _ _ himage => ⟨himage, rfl⟩
  fresh := fun vpn hlow hhigh => by omega

theorem pages_of_loss (less more : ℕ) :
    (pageRoundUp more - pageRoundUp less) / pgSize = endPage more - endPage less := by
  rw [pageRoundUp_eq, pageRoundUp_eq, ← Nat.sub_mul, page_div]

theorem roomy_true (vpn : ℕ) : Roomy (fun _ => True) vpn :=
  ⟨fun _ => trivial, trivial, trivial⟩

/-- Pages below the guard page beyond the size are not mapped. -/
theorem spanned_empty {table : Table} {pages vpn : ℕ}
    (hspanned : Spanned table pages) (hlow : pages ≤ vpn)
    (hhigh : vpn < guardPage) : image table vpn = none := by
  rw [← Option.not_isSome_iff_eq_none]
  intro hsome
  have hbelow := (hspanned.user vpn hhigh).mp hsome
  omega

theorem ensures_udealloc (hlaid : Laid total proc memory found) (hless : size < found.size) :
    Ensures (udealloc proc found.size size) memory (fun result next =>
      result = size ∧ ∃ changed, Cleared (Backed total) proc memory found
        (fun vpn => endPage size ≤ vpn ∧ vpn < endPage found.size) next changed) Exhausted := by
  have hpages := endPage_le_guardPage hlaid.fits
  have hmono := endPage_mono hless.le
  have hguard : guardPage + 2 = userPages := rfl
  have hsum : endPage size + (endPage found.size - endPage size) = endPage found.size := by omega
  simp only [udealloc, if_neg (Nat.not_le.mpr hless)]
  refine ensures_ite.mpr ⟨fun _ => ?_, fun hsame => ?_⟩
  · rw [ensures_bind, pages_of_loss, pageRoundUp_eq]
    refine (ensures_uunmap (books_backed total Exhausted) hlaid.standing
      (by omega) ?_).imp_returned ?_
    · intro vpn hlow hhigh
      exact (hlaid.spanned.user vpn (by omega)).mpr (by omega)
    · rintro _ next ⟨changed, hcleared⟩
      rw [hsum] at hcleared
      exact ⟨rfl, changed, hcleared⟩
  · have hequal : endPage found.size ≤ endPage size := by
      rw [pageRoundUp_eq, pageRoundUp_eq] at hsame
      exact Nat.le_of_mul_le_mul_right (not_lt.mp hsame) (by decide)
    exact ⟨rfl, found, hlaid.standing.cleared fun vpn => by omega⟩

theorem spanned_resize {table after : Table} {pages more : ℕ} (hspanned : Spanned table pages)
    (huser : ∀ vpn < guardPage, (image after vpn).isSome = true ↔ vpn < more)
    (hkept : ∀ vpn, guardPage ≤ vpn → image after vpn = image table vpn) : Spanned after more where
  user := huser
  stack := by
    intro vpn hlow hhigh
    rw [hkept vpn hlow]
    exact hspanned.stack vpn hlow hhigh
  trapframe := by
    rw [hkept _ (by decide)]
    exact hspanned.trapframe
  trampoline := by
    rw [hkept _ (by decide)]
    exact hspanned.trampoline

/-- The size is smaller and the pages above it are gone. -/
theorem Laid.shrunk (hlaid : Laid total proc memory found) (hless : size < found.size)
    (hcleared : Cleared (Backed total) proc memory found
      (fun vpn => endPage size ≤ vpn ∧ vpn < endPage found.size) next changed)
    (hresized : resized = { changed with size := size })
    (hafter : after = { next with spaces := update next.spaces proc (some resized) }) :
    Laid total proc after resized ∧ Resized memory found after resized := by
  subst hafter hresized
  have hpages := endPage_le_guardPage hlaid.fits
  have hmono := endPage_mono hless.le
  have hguard : guardPage + 2 = userPages := rfl
  have hkept : ∀ vpn, ¬(endPage size ≤ vpn ∧ vpn < endPage found.size) →
      image changed.table vpn = image found.table vpn := hcleared.image
  refine ⟨⟨standing_resize (books_backed total Exhausted).spaces
    hcleared.standing size, ?_, hless.le.trans hlaid.fits⟩, ?_, ?_⟩
  · refine spanned_resize hlaid.spanned ?_ fun vpn hlow => hkept vpn (by omega)
    intro vpn hvpn
    by_cases hgone : endPage size ≤ vpn ∧ vpn < endPage found.size
    · rw [hcleared.clear vpn hgone]
      exact ⟨nofun, fun hlow => by dsimp only at hlow; omega⟩
    · rw [hkept vpn hgone, hlaid.spanned.user vpn hvpn]
      dsimp only
      omega
  · intro vpn hvpn hwhere pte himage
    dsimp only at hwhere
    exact ⟨(hkept vpn (by omega)).trans himage,
      congrFun hcleared.bytes pte.ppn⟩
  · intro vpn hlow hhigh
    dsimp only at hhigh
    omega

/-- The size is larger and there are new pages. -/
theorem Laid.grown (hlaid : Laid total proc memory found)
    (hmore : found.size ≤ size) (hlimit : size ≤ sizeLimit)
    (hgrown : Grown (Backed total) proc memory found (endPage found.size)
      (endPage size - endPage found.size) next changed)
    (hresized : resized = { changed with size := size })
    (hafter : after = { next with spaces := update next.spaces proc (some resized) }) :
    Laid total proc after resized ∧ Resized memory found after resized := by
  subst hafter hresized
  have hpages := endPage_le_guardPage hlimit
  have hmono := endPage_mono hmore
  have hguard : guardPage + 2 = userPages := rfl
  refine ⟨⟨standing_resize (books_backed total Exhausted).spaces
    hgrown.standing size, ?_, hlimit⟩, ?_, ?_⟩
  · refine spanned_resize hlaid.spanned ?_ fun vpn hlow => hgrown.kept vpn (by omega)
    intro vpn hvpn
    by_cases hnew : endPage found.size ≤ vpn ∧ vpn < endPage size
    · obtain ⟨frame, himage, -⟩ := hgrown.fresh vpn hnew.1 (by omega)
      rw [himage]
      exact ⟨fun _ => hnew.2, fun _ => rfl⟩
    · rw [hgrown.kept vpn (by omega), hlaid.spanned.user vpn hvpn]
      dsimp only
      omega
  · intro vpn hvpn hwhere pte himage
    have hold : ¬(endPage found.size ≤ vpn ∧
        vpn < endPage found.size + (endPage size - endPage found.size)) := by
      rintro ⟨hlow, hhigh⟩
      rw [spanned_empty hlaid.spanned hlow (by omega)] at himage
      cases himage
    exact ⟨(hgrown.kept vpn hold).trans himage, hgrown.drawn.bytes _
      (not_free_of_image (provision_backed total fun _ => True) hlaid.standing hvpn himage)⟩
  · intro vpn hlow hhigh
    dsimp only at hhigh
    exact hgrown.fresh vpn hlow (by omega)

/-- New pages can be read as well. -/
theorem Resized.readable (hresized : Resized memory found next changed)
    (hbefore : Laid total proc memory found) (hafter : Laid total proc next changed)
    (htrapframe : changed.trapframe = found.trapframe)
    (hreadable : Readable found) : Readable changed where
  read := by
    intro vpn hvpn pte himage
    have hguard : guardPage + 2 = userPages := rfl
    have hsome : (image changed.table vpn).isSome = true := by
      rw [himage]
      rfl
    have hwhere : vpn < endPage changed.size ∨ guardPage ≤ vpn := by
      by_cases hbelow : vpn < guardPage
      · exact Or.inl ((hafter.spanned.user vpn hbelow).mp hsome)
      · exact Or.inr (by omega)
    by_cases hold : (image found.table vpn).isSome = true
    · obtain ⟨old, hentry⟩ := Option.isSome_iff_exists.mp hold
      have hkept := (hresized.kept vpn hvpn hwhere old hentry).1
      rw [hkept] at himage
      rw [← Option.some.inj himage]
      exact hreadable.read vpn hvpn old hentry
    · have hbelow : vpn < guardPage := by
        by_contra hupper
        exact hold (hbefore.spanned.stack vpn (by omega) (by omega))
      have hnew : endPage found.size ≤ vpn := by
        by_contra hless
        exact hold ((hbefore.spanned.user vpn hbelow).mpr (by omega))
      obtain ⟨frame, hfresh, -⟩ := hresized.fresh vpn hnew (by omega)
      rw [hfresh] at himage
      rw [← Option.some.inj himage]
      rfl
  trapframe := by
    rw [htrapframe]
    exact hreadable.trapframe

/-- The size after `grow_proc`: a process that would shrink below zero keeps its
size. -/
def newSize (size : ℕ) (count : ℤ) : ℕ :=
  if (size : ℤ) + count < 0 then size else ((size : ℤ) + count).toNat

/-- The argument is of type `isize`, and the size stays below the guard page. -/
def Admitted (found : Space) (count : ℤ) : Prop :=
  -2 ^ 63 ≤ count ∧ (found.size : ℤ) + count ≤ sizeLimit

/-- `grow_proc`. -/
theorem ensures_growProc (hlaid : Laid total proc memory found) (hadmitted : Admitted found count) :
    Ensures (growProc proc count) memory (fun done next => done = true ∧
      ∃ changed, changed.size = newSize found.size count ∧ changed.trapframe = found.trapframe ∧
        Laid total proc next changed ∧ Resized memory found next changed) Exhausted := by
  obtain ⟨hlow, hlimit⟩ := hadmitted
  have hfits := hlaid.fits
  have hvalue : sizeLimit = 274877890560 := by decide
  have hword : usizeSize = 18446744073709551616 := by decide
  simp only [growProc, ensures_bind]
  refine (ensures_space_found hlaid.standing.spaces).mpr ?_
  refine ensures_ite.mpr ⟨fun hneg => ?_, fun hnonneg => ?_⟩
  · rw [ensures_bind]
    by_cases hunder : (found.size : ℤ) + count < 0
    · -- The sum wraps around to an address above the size: nothing happens.
      have hwrap : found.size ≤ (((found.size : ℤ) + count) % (usizeSize : ℤ)).toNat := by
        rw [hword]
        omega
      simp only [udealloc, if_pos hwrap, ensures_bind]
      refine ensures_setSize hlaid.standing.spaces ⟨rfl, found, ?_, rfl, ?_, ?_⟩
      · rw [newSize, if_pos hunder]
      · exact ⟨standing_resize (books_backed total Exhausted).spaces
          hlaid.standing _, hlaid.spanned, hlaid.fits⟩
      · exact ⟨fun _ _ _ _ himage => ⟨himage, rfl⟩, fun vpn hfirst hlast => by omega⟩
    · have hsum : (((found.size : ℤ) + count) % (usizeSize : ℤ)).toNat =
          newSize found.size count := by
        rw [newSize, if_neg hunder, hword]
        omega
      have hless : newSize found.size count < found.size := by
        rw [newSize, if_neg hunder]
        omega
      rw [hsum]
      refine (ensures_udealloc hlaid hless).imp_returned ?_
      rintro _ next ⟨rfl, changed, hcleared⟩
      rw [ensures_bind]
      refine ensures_setSize hcleared.standing.spaces ⟨rfl,
        { changed with size := newSize found.size count }, rfl, ?_, ?_⟩
      · change changed.trapframe = found.trapframe
        rw [hcleared.same]
      · exact hlaid.shrunk hless hcleared rfl rfl
  · refine ensures_ite.mpr ⟨fun hzero => ?_, fun hpos => ?_⟩
    · subst hzero
      refine ⟨rfl, found, ?_, rfl, hlaid, Resized.refl _ _⟩
      rw [newSize, if_neg (by omega)]
      omega
    · have hsum : found.size + count.toNat = newSize found.size count := by
        rw [newSize, if_neg (by omega)]
        omega
      have hmore : found.size ≤ newSize found.size count := by omega
      have hbelow : newSize found.size count ≤ sizeLimit := by omega
      rw [ensures_bind, hsum]
      have hpages := endPage_le_guardPage hbelow
      have hguard : guardPage + 2 = userPages := rfl
      refine (ensures_ualloc (provision_backed total fun _ => True)
        hlaid.standing hmore (by omega) (fun _ _ _ => roomy_true _)
        fun vpn hlow hhigh => spanned_empty hlaid.spanned hlow (by omega)).imp_returned ?_
      rintro _ next ⟨rfl, changed, hgrown⟩
      simp only [ensures_bind]
      refine ensures_setSize hgrown.standing.spaces ⟨rfl,
        { changed with size := newSize found.size count }, rfl, ?_, ?_⟩
      · change changed.trapframe = found.trapframe
        rw [hgrown.same]
      · exact hlaid.grown hmore hbelow hgrown rfl rfl

end Resizing

/-! ## A new address space -/

/-- `alloc_proc` with its `proc_pagetable`, and `ualloc_stack`. -/
def setUp (proc : Proc) : MemM Bool := do
  allocProc proc
  uallocStack proc

section SettingUp

variable {total : Finset ℕ} {proc : Proc} {memory : Memory}

/-- A new address space has its stack and no user pages. -/
theorem ensures_setUp (hbacked : Backed total memory fun _ : Piece => none) :
    Ensures (setUp proc) memory (fun done next => done = true ∧
      ∃ found, found.size = 0 ∧ Laid total proc next found ∧ Readable found) Exhausted := by
  have hguard : guardPage + 2 = userPages := rfl
  have hprovision := provision_backed total fun _ => True
  simp only [setUp, ensures_bind]
  refine (ensures_allocProc hprovision.toSupply hbacked trivial
    trivial fun _ _ _ => ⟨trivial, trivial⟩).imp_returned ?_
  rintro _ created ⟨fresh, hcreated⟩
  refine (ensures_uallocStack hprovision hcreated.standing (fun _ _ _ => roomy_true _)
    fun vpn _ hvpn => hcreated.empty vpn hvpn).imp_returned ?_
  rintro _ next ⟨rfl, found, hfound⟩
  obtain ⟨guard, hguarded⟩ := hfound.guard
  obtain ⟨stack, hstacked⟩ := hfound.stack
  have hzero : found.size = 0 := by
    rw [hfound.same]
    exact hcreated.size
  refine ⟨rfl, found, hzero, ⟨hfound.standing, ⟨?_, ?_, ?_, ?_⟩, ?_⟩, ?_, ?_⟩
  · intro vpn hvpn
    rw [hzero, hfound.kept vpn (by omega) (by omega),
      hcreated.empty vpn (by omega), endPage_eq_zero.mpr rfl]
    exact ⟨nofun, fun hnever => by omega⟩
  · intro vpn hlow hhigh
    obtain rfl | rfl : vpn = guardPage ∨ vpn = guardPage + 1 := by omega
    · rw [hguarded]
      rfl
    · rw [hstacked]
      rfl
  · rw [hfound.kept _ (by omega) (by omega)]
    exact hcreated.trapframe
  · rw [hfound.kept _ (by omega) (by omega)]
    exact hcreated.trampoline
  · rw [hzero]
    exact Nat.zero_le _
  · intro vpn hvpn pte himage
    by_cases hlow : vpn = guardPage
    · rw [hlow, hguarded] at himage
      rw [← Option.some.inj himage]
      rfl
    · by_cases hhigh : vpn = guardPage + 1
      · rw [hhigh, hstacked] at himage
        rw [← Option.some.inj himage]
        rfl
      · rw [hfound.kept vpn hlow hhigh, hcreated.empty vpn hvpn] at himage
        cases himage
  · obtain ⟨frame, -, hframe⟩ := hcreated.frame
    rw [hfound.same, hframe]
    rfl

end SettingUp

/-! ## Runs -/

/-- A call of `grow_proc`, if memory does not run out. -/
def step (proc : Proc) (memory : Memory) (count : ℤ) : Option Memory :=
  outcome (growProc proc count) memory

def Allowed (proc : Proc) (memory : Memory) (count : ℤ) : Prop :=
  match memory.spaces proc with
  | some found => Admitted found count
  | none => True

/-- Everything the address space held but the trap frame has gone back to the
allocator, each page once. -/
structure Returned (memory : Memory) (found : Space) (next : Memory) :
    Prop where
  nodup : next.free.Nodup
  free : ∀ frame, frame ∈ next.free ↔ frame ∈ memory.free ∨
    ∃ piece, piece ≠ .trapframe ∧ holds found piece = some frame

section Runs

variable {total : Finset ℕ} {proc : Proc} {memory first last next : Memory}
variable {found : Space} {record : List (Memory × ℤ)} {count : ℤ}

theorem Laid.returned (hlaid : Laid total proc memory found) :
    Ensures (takeDown proc) memory (fun _ next => Returned memory found next) fun _ _ => False := by
  have hbefore := hlaid.standing.kept.stocked
  refine (ensures_takeDown (books_backed total fun _ _ => False) hlaid.standing
    hlaid.spanned (endPage_le_guardPage hlaid.fits)).imp_returned ?_
  rintro _ next ⟨kept, hkept, hnone, htrapframe⟩
  have hafter := hkept.stocked
  have honly : ∀ piece frame, kept piece = some frame → piece = .trapframe ∧
      holds found .trapframe = some frame := by
    intro piece frame hsome
    have hpiece : piece = .trapframe := by
      by_contra hother
      rw [hnone piece hother] at hsome
      cases hsome
    rw [hpiece, htrapframe] at hsome
    exact ⟨hpiece, hsome⟩
  refine ⟨hafter.nodup, fun frame => ⟨fun hfree => ?_, fun hheld => ?_⟩⟩
  · rcases (hbefore.whole frame).mp (hafter.mem_of_free hfree) with
      hmem | ⟨piece, hpiece⟩
    · exact Or.inl hmem
    · refine Or.inr ⟨piece, ?_, hpiece⟩
      rintro rfl
      exact hafter.apart .trapframe frame (htrapframe.trans hpiece) hfree
  · have htotal : frame ∈ total := by
      rcases hheld with hmem | ⟨piece, -, hpiece⟩
      · exact hbefore.mem_of_free hmem
      · exact hbefore.mem_of_held hpiece
    rcases (hafter.whole frame).mp htotal with hfree | ⟨piece, hpiece⟩
    · exact hfree
    · have htaken := (honly piece frame hpiece).2
      rcases hheld with hmem | ⟨other, hother, hsome⟩
      · exact absurd hmem (hbefore.apart .trapframe frame htaken)
      · exact absurd (hbefore.sole other .trapframe frame hsome htaken) hother

/-- One call. -/
theorem Laid.step (hlaid : Laid total proc memory found) (hallowed : Allowed proc memory count)
    (hstep : step proc memory count = some next) :
    ∃ changed, changed.size = newSize found.size count ∧ changed.trapframe = found.trapframe ∧
      Laid total proc next changed ∧ Resized memory found next changed := by
  unfold Allowed at hallowed
  rw [hlaid.standing.spaces] at hallowed
  have hensures := ensures_growProc hlaid hallowed
  unfold ProcessSize.step outcome at hstep
  split at hstep
  · next value middle hrun =>
      cases hstep
      exact (hensures.eq_ok hrun).2
  · cases hstep

/-- Over any sequence of `grow_proc` the pages below the guard page are those
below the size, growth adds zeroed pages, shrinking keeps what remains, and in
the end `proc_free_pagetable` and the drop of the table give back what the
address space holds. -/
theorem run_conserves (hlaid : Laid total proc first found)
    (hrun : Run (step proc) first record last)
    (hallowed : ∀ entry ∈ record, Allowed proc entry.1 entry.2) :
    (∀ entry ∈ record, ∀ next, step proc entry.1 entry.2 = some next →
      ∃ before after, Laid total proc entry.1 before ∧ Laid total proc next after ∧
        after.size = newSize before.size entry.2 ∧ Resized entry.1 before next after) ∧
      ∃ after, Laid total proc last after ∧ Ensures (takeDown proc) last
          (fun _ next => Returned last after next) fun _ _ => False := by
  have hkeep : ∀ memory count next, (∃ found, Laid total proc memory found) →
      Allowed proc memory count → step proc memory count = some next →
        ∃ found, Laid total proc next found := by
    rintro memory count next ⟨found, hlaid⟩ hallowed hstep
    obtain ⟨changed, -, -, hchanged, -⟩ := hlaid.step hallowed hstep
    exact ⟨changed, hchanged⟩
  obtain ⟨⟨after, hlast⟩, hstates⟩ := hrun.invariant hkeep ⟨found, hlaid⟩ hallowed
  refine ⟨fun entry hentry next hstep => ?_, after, hlast, hlast.returned⟩
  obtain ⟨before, hbefore⟩ := hstates entry hentry
  obtain ⟨changed, hsize, -, hchanged, hresized⟩ := hbefore.step (hallowed entry hentry) hstep
  exact ⟨before, changed, hbefore, hchanged, hsize, hresized⟩

end Runs

instance (found : Space) (count : ℤ) : Decidable (Admitted found count) :=
  inferInstanceAs (Decidable (_ ∧ _))

instance (proc : Proc) (memory : Memory) (count : ℤ) : Decidable (Allowed proc memory count) := by
  unfold Allowed
  split <;> infer_instance

theorem backed_boot (pages : ℕ) (hpages : pages < npages) :
    Backed (boot pages).free.toFinset (boot pages) fun _ : Piece => none where
  stocked := by
    refine ⟨List.nodup_range', nofun, nofun, fun frame => ?_⟩
    rw [List.mem_toFinset]
    exact ⟨Or.inl, fun hmem => hmem.resolve_right nofun⟩
  counted := nofun
  ranged := by
    intro frame hframe
    have hmem := List.mem_range'_1.mp (List.mem_toFinset.mp hframe)
    exact ⟨by omega, by omega⟩

/-- A process grows to two pages, shrinks within a page, asks for more than it
has, and shrinks to nothing and grows again. -/
def resizes : List ℤ := [5000, -100, -100000, 0, -4900, 1]

theorem run_conserves_resizes : ∃ created found record last,
    Laid (boot 32).free.toFinset 0 created found ∧
      Run (step 0) created record last ∧ record.map Prod.snd = resizes ∧
      (∀ entry ∈ record, Allowed 0 entry.1 entry.2) ∧
      ∃ after, Laid (boot 32).free.toFinset 0 last after ∧ Ensures (takeDown 0) last
          (fun _ next => Returned last after next) fun _ _ => False := by
  have hsome : ((outcome (setUp 0) (boot 32)).any fun created =>
      (resizes.foldlM (guarded (Allowed 0) (step 0)) created).isSome) = true := by decide +kernel
  obtain ⟨created, hcreated, hsteps⟩ := (Option.any_eq_true _ _).mp hsome
  obtain ⟨last, hfold⟩ := Option.isSome_iff_exists.mp hsteps
  obtain ⟨record, hrun, hactions, hallowed⟩ := Run.of_foldlM_admitted hfold
  have hsetUp : Ensures (setUp 0) (boot 32) _ Exhausted :=
    ensures_setUp (backed_boot 32 (by decide))
  unfold outcome at hcreated
  split at hcreated
  · next value middle hresult =>
      cases hcreated
      obtain ⟨-, found, -, hlaid, -⟩ := hsetUp.eq_ok hresult
      exact ⟨created, found, record, last, hlaid, hrun, hactions, hallowed,
        (run_conserves hlaid hrun hallowed).2⟩
  · cases hcreated

end RxOs.ProcessSize
