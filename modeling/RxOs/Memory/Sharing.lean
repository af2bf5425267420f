import RxOs.Memory.Holdings
import RxOs.Memory.Walking

/-!
# Copy-on-write sharing of user pages

The memory operations of the kernel keep the pool of pages balanced.  Each
function has one specification, which says what it keeps when it returns; a
panic stops the machine.
-/

namespace RxOs.Sharing

open Function Exec RefCount PageTable Frames AddressSpace Holdings Walking
open Kernel (Proc)

abbrev Yields {Value : Type} (program : MemM Value) (memory : Memory)
    (returned : Value → Memory → Prop) : Prop :=
  Ensures program memory returned fun _ _ => True

/-! ## Walking -/

section Walking

variable {allowed : Proc → ℕ → Prop} {flight : Option ℕ}
variable {memory next : Memory} {proc : Proc} {va : ℕ}

/-- What a walk that makes the missing tables leaves behind. -/
structure Walked (allowed : Proc → ℕ → Prop) (flight : Option ℕ)
    (memory next : Memory) : Prop where
  kept : Kept allowed flight next
  profile_eq : profile next = profile memory
  mapped_eq : mapped next = mapped memory
  count_eq : ∀ frame, memory.count frame ≠ 0 →
    next.count frame = memory.count frame

theorem taken_count (hkept : Kept allowed flight memory) {frame : ℕ}
    {rest : List ℕ} (hfree : memory.free = frame :: rest) (other : ℕ)
    (hother : memory.count other ≠ 0) :
    (Memory.taken memory frame rest).count other = memory.count other := by
  have hne : other ≠ frame := by
    rintro rfl
    refine hother (hkept.balanced.unheld other ?_)
    change other ∈ memory.free
    rw [hfree]
    exact List.mem_cons_self
  exact update_of_ne hne 1 memory.count

theorem Walked.hang (hwalked : Walked allowed flight memory next) {found : Space}
    (hfound : next.spaces proc = some found) {place : Place}
    (hwanting : Wanting found.table va place) {frame : ℕ} {rest : List ℕ}
    (hfree : next.free = frame :: rest) :
    Walked allowed flight memory { next.taken frame rest with
      spaces := update next.spaces proc
        (some { found with table := found.table.hang place frame }) } := by
  have hformed := hwalked.kept.formed proc found hfound
  have hcount : ∀ each, memory.count each ≠ 0 →
      (next.taken frame rest).count each = memory.count each := by
    intro each heach
    have hsame := hwalked.count_eq each heach
    rw [← hsame] at heach ⊢
    exact taken_count hwalked.kept hfree each heach
  cases hwanting with
  | top hinvalid =>
    have hnone : holds found (.mid (pageNum va 2)) = none := target_eq_none hinvalid
    obtain ⟨hkept, hmapped⟩ := hwalked.kept.hang hfound hfree (by simp) hnone
      (holds_hang_top hformed hinvalid) (fun _ => rfl) (hformed.hang_top hinvalid frame) rfl
    refine ⟨hkept, (profile_of_same hfound rfl ?_ ?_ ?_).trans hwalked.profile_eq,
      hmapped.trans hwalked.mapped_eq, hcount⟩ <;> rfl
  | mid htop hinvalid =>
    have hnone : holds found (.bottom (pageNum va 2) (pageNum va 1)) = none :=
      target_eq_none hinvalid
    obtain ⟨hkept, hmapped⟩ := hwalked.kept.hang hfound hfree (by simp) hnone
      (holds_hang_mid hformed hinvalid) (exclusive_hang_mid hformed hinvalid)
      (hformed.hang_mid htop frame) rfl
    refine ⟨hkept, Eq.trans ?_ hwalked.profile_eq, hmapped.trans hwalked.mapped_eq, hcount⟩
    exact profile_of_same hfound rfl rfl rfl (upperEntry_hang_mid hformed hinvalid)

/-- A walk to an address finds its last-level entry. -/
theorem yields_walk (hkept : Kept allowed flight memory) (hva : va ≤ maxVa) :
    Yields (walk proc va) memory fun place next =>
      place = some (slot va) ∧ Walked allowed flight memory next ∧
        ∀ space, next.spaces proc = some space →
          (space.table.mid (pageNum va 2) (pageNum va 1)).v = true := by
  cases hfound : memory.spaces proc with
  | none =>
    rw [Yields, walk, if_neg (Nat.not_lt.mpr hva), ensures_bind, ensures_space, hfound]
    exact ⟨fun _ => trivial, by rintro _ ⟨⟩⟩
  | some found =>
    have hsurvives : Survives (fun next found => next.spaces proc = some found ∧
        Walked allowed flight memory next) proc va fun _ _ => True :=
      { spaces := fun _ _ hinv => hinv.1
        layered := fun _ _ hinv => (Table.formed_iff.mp (hinv.2.kept.formed _ _ hinv.1)).1
        hang := fun _ _ _ _ _ hinv hwanting hfree =>
          ⟨update_self .., hinv.2.hang hinv.1 hwanting hfree⟩
        starved := fun _ _ _ _ _ _ => trivial }
    refine (hsurvives.ensures_walk
      ⟨hfound, hkept, rfl, rfl, fun _ _ => rfl⟩ hva).imp_returned ?_
    rintro _ next ⟨stop, after, rfl, ⟨hafter, hwalked⟩, hreaches⟩
    obtain ⟨rfl, hunder⟩ := hreaches.of_formed (hwalked.kept.formed proc after hafter)
    refine ⟨rfl, hwalked, fun space hspace => ?_⟩
    rw [hafter] at hspace
    rwa [← Option.some.inj hspace]

end Walking

/-! ## Mapping and unmapping -/

section Mapping

variable {allowed : Proc → ℕ → Prop} {flight : Option ℕ}
variable {memory : Memory} {proc : Proc} {va frame : ℕ} {perm : Pte}

theorem le_maxVa_of_user (hva : va / pgSize < userPages) : va ≤ maxVa := by
  have hmax : maxVa = 274877906944 := rfl
  have hpages : userPages = 67108862 := rfl
  rw [show pgSize = 4096 from rfl] at hva
  omega

/-- The page in hand is mapped at a user page that was not mapped. -/
theorem yields_mapPage (hkept : Kept allowed (some frame) memory) (hva : va / pgSize < userPages)
    (hone : perm.w = true → memory.count frame = 1)
    (haligned : ∀ other vpn, mapped memory other vpn = some frame → vpn.val = va / pgSize) :
    Yields (mapPage proc va frame perm) memory fun done next =>
      done = true ∧ Kept (fun other vpn => allowed other vpn ∨
        other = proc ∧ vpn = va / pgSize) none next ∧ profile next = profile memory := by
  have hheld : (pool (some frame) memory).refs .flight = some frame := rfl
  have hcount : memory.count frame ≠ 0 := (hkept.balanced.count_pos hheld).ne'
  simp only [Yields, mapPage, ensures_bind]
  refine (yields_walk hkept (le_maxVa_of_user hva)).imp_returned ?_
  rintro place walked ⟨rfl, hwalked, hunder⟩
  simp only [ensures_bind]
  refine ensures_space.mpr ⟨fun _ => trivial, fun found hfound => ?_⟩
  change Ensures (if (found.table.leaf va).v = true then _ else _) _ _ _
  cases hvalid : (found.table.leaf va).v with
  | true => trivial
  | false =>
    simp only [Bool.false_eq_true, if_false, ensures_bind]
    refine (ensures_modifyTable hfound).mpr ?_
    have hexchange := hwalked.kept.exchange hva hfound
      (hunder found hfound) (target_withPerm perm) (fun hwrite => by
        rw [hwalked.count_eq frame hcount]
        exact hone hwrite)
      (by rwa [hwalked.mapped_eq]) rfl
    rw [target_eq_none hvalid] at hexchange
    exact ⟨rfl, hexchange, (profile_set hva hfound rfl).trans hwalked.profile_eq⟩

/-- A page is mapped at or above the trap frame. -/
theorem yields_mapPage_upper (hkept : Kept allowed flight memory)
    (hva : userPages ≤ va / pgSize) (hlimit : va ≤ maxVa) :
    Yields (mapPage proc va frame perm) memory fun done next =>
      done = true ∧ Kept allowed flight next ∧ profile next = update (profile memory) proc
          ((profile memory proc).map fun before =>
            { before with
              upper := update before.upper (va / pgSize) (some (perm.withPerm frame)) }) := by
  have hcount := lt_vpnCount_of_le_maxVa hlimit
  simp only [Yields, mapPage, ensures_bind]
  refine (yields_walk hkept hlimit).imp_returned ?_
  rintro place walked ⟨rfl, hwalked, hunder⟩
  simp only [ensures_bind]
  refine ensures_space.mpr ⟨fun _ => trivial, fun found hfound => ?_⟩
  refine ensures_ite.mpr ⟨fun _ => trivial, fun hinvalid => ?_⟩
  simp only [ensures_bind]
  refine (ensures_modifyTable hfound).mpr ?_
  refine ⟨rfl, hwalked.kept.upper hva hcount hfound (hunder found hfound) rfl, ?_⟩
  rw [← hwalked.profile_eq, profile_of_update rfl, profile_eq_some hfound, Option.map_some,
    upperEntry_set_upper hva hcount rfl]
  rfl

/-- Nothing is mapped over an entry above the user pages. -/
theorem yields_mapPage_taken (hkept : Kept allowed flight memory)
    (hlimit : va ≤ maxVa) {before : Profile} (hprofile : profile memory proc = some before)
    (htaken : (before.upper (va / pgSize)).isSome = true) (returned : Bool → Memory → Prop) :
    Yields (mapPage proc va frame perm) memory returned := by
  simp only [Yields, mapPage, ensures_bind]
  refine (yields_walk hkept hlimit).imp_returned ?_
  rintro place walked ⟨rfl, hwalked, hunder⟩
  simp only [ensures_bind]
  refine ensures_space.mpr ⟨fun _ => trivial, fun found hfound => ?_⟩
  have hvalid : (found.table.leaf va).v = true := by
    rw [← hwalked.profile_eq] at hprofile
    unfold profile at hprofile
    rw [hfound, Option.map_some] at hprofile
    cases hprofile
    change (upperEntry found.table (va / pgSize)).isSome = true at htaken
    unfold upperEntry at htaken
    split at htaken
    · next hupper =>
        rw [leaf_eq_page _ hupper.2.1] at hupper
        exact hupper.2.2
    · cases htaken
  change Ensures (if (found.table.leaf va).v = true then _ else _) _ _ _
  rw [if_pos hvalid]
  trivial

/-- A user page is unmapped and given back. -/
theorem yields_unmapPage (hkept : Kept allowed none memory) (hva : va / pgSize < userPages) :
    Yields (unmapPage proc va true) memory fun _ next =>
      Kept (fun other vpn => allowed other vpn ∧ ¬(other = proc ∧ vpn = va / pgSize)) none next ∧
          profile next = profile memory := by
  simp only [Yields, unmapPage, ensures_bind]
  refine ensures_space.mpr ⟨fun _ => trivial, fun found hfound => ?_⟩
  cases hlookup : found.table.lookup va with
  | none => trivial
  | some place =>
    obtain ⟨-, rfl⟩ := (hkept.formed proc found hfound).lookup_eq_some hlookup
    change Ensures (if (found.table.leaf va).v = true then _ else _) _ _ _
    refine ensures_ite.mpr ⟨fun hvalid => ?_, fun _ => trivial⟩
    rw [if_pos trivial, ensures_bind]
    have hspaces : (memory.dropped (found.table.leaf va).ppn).spaces proc = some found := hfound
    refine ensures_dealloc.mpr
      ⟨fun _ => trivial, fun _ => (ensures_modifyTable hspaces).mpr ?_⟩
    exact ⟨hkept.clear hva hfound hvalid rfl, profile_set hva hfound rfl⟩

theorem yields_unmapPage_keep :
    Yields (unmapPage proc va false) memory fun _ next => next = memory := by
  simp only [Yields, unmapPage, ensures_bind]
  refine ensures_space.mpr ⟨fun _ => trivial, fun found hfound => ?_⟩
  cases found.table.lookup va with
  | none => trivial
  | some place => exact ensures_ite.mpr ⟨fun _ => rfl, fun _ => trivial⟩

/-- The pages of a range are unmapped one after the other. -/
theorem yields_unmapPages (pages first : ℕ) (hkept : Kept allowed none memory)
    (hrange : first + pages ≤ userPages) :
    Yields (unmapPages proc true pages (first * pgSize)) memory fun _ next =>
      Kept (fun other vpn => allowed other vpn ∧
        ¬(other = proc ∧ first ≤ vpn ∧ vpn < first + pages)) none next ∧
          profile next = profile memory := by
  induction pages generalizing first allowed memory with
  | zero =>
    refine ⟨hkept.weaken fun other vpn _ hallowed => ⟨hallowed, ?_⟩, rfl⟩
    omega
  | succ pages ih =>
    have hvpn : first * pgSize / pgSize = first := Nat.mul_div_cancel _ (by decide)
    simp only [Yields, unmapPages, ensures_bind]
    refine (yields_unmapPage hkept (by omega)).imp_returned ?_
    rintro _ middle ⟨hmiddle, hprofile⟩
    rw [hvpn] at hmiddle
    rw [addPage, ← Nat.succ_mul]
    refine (ih (first + 1) hmiddle (by omega)).imp_returned ?_
    rintro _ last ⟨hlast, hsame⟩
    refine ⟨hlast.weaken ?_, hsame.trans hprofile⟩
    rintro other vpn _ ⟨⟨hallowed, hfirst⟩, hrest⟩
    refine ⟨hallowed, ?_⟩
    rintro ⟨rfl, hlow, hhigh⟩
    by_cases hvpn : vpn = first
    · exact hfirst ⟨rfl, hvpn⟩
    · exact hrest ⟨rfl, by omega, by omega⟩

theorem yields_uunmap {pages first : ℕ} (hkept : Kept allowed none memory)
    (hrange : first + pages ≤ userPages) :
    Yields (uunmap proc (first * pgSize) pages true) memory fun _ next =>
      Kept (fun other vpn => allowed other vpn ∧
        ¬(other = proc ∧ first ≤ vpn ∧ vpn < first + pages)) none next ∧
          profile next = profile memory := by
  unfold uunmap
  rw [if_neg (by rw [Nat.mul_mod_left]; exact fun h => h rfl)]
  exact yields_unmapPages pages first hkept hrange

end Mapping

/-! ## Sharing and copying -/

section Pages

variable {allowed : Proc → ℕ → Prop} {memory : Memory}
variable {proc parent child : Proc} {va frame : ℕ}

theorem not_mapped_of_count (hkept : Kept allowed (some frame) memory)
    (hcount : memory.count frame = 1) (other : Proc) (vpn : Fin userPages) :
    mapped memory other vpn ≠ some frame := by
  intro hmapped
  have hflight : (pool (some frame) memory).refs .flight = some frame := rfl
  have hpage : (pool (some frame) memory).refs (.piece other (.page vpn)) = some frame := hmapped
  have hsame := hkept.balanced.eq_of_count_eq_one hcount hflight hpage
  cases hsame

/-- Sharing a page maps it in the child as well, and takes the write bit from
the parent. -/
theorem yields_shareOnePage (hkept : Kept allowed none memory)
    (haligned : va % pgSize = 0) (hva : va / pgSize < userPages) :
    Yields (shareOnePage parent child va) memory fun done next =>
      done = true ∧ Kept (fun other vpn => allowed other vpn ∨
        other = child ∧ vpn = va / pgSize) none next ∧ profile next = profile memory := by
  simp only [Yields, shareOnePage, ensures_bind]
  refine ensures_space.mpr ⟨fun _ => trivial, fun found hfound => ?_⟩
  cases hlookup : found.table.lookup va with
  | none => trivial
  | some place =>
    obtain ⟨-, rfl⟩ := (hkept.formed parent found hfound).lookup_eq_some hlookup
    change Ensures (if (found.table.leaf va).v = true then _ else _) _ _ _
    refine ensures_ite.mpr ⟨fun hvalid => ?_, fun _ => trivial⟩
    simp only [ensures_bind]
    refine (ensures_modifyTable hfound).mpr ?_
    change Ensures (addCount (found.table.leaf va).ppn)
      { memory with
        spaces := update memory.spaces parent (some { found with
          table := found.table.set (slot va) (found.table.leaf va).toCowPage }) } _ _
    generalize hmarked : { memory with
      spaces := update memory.spaces parent (some { found with
        table := found.table.set (slot va) (found.table.leaf va).toCowPage }) } = marked
    have hspaces : marked.spaces = update memory.spaces parent
        (some { found with
          table := found.table.set (slot va) (found.table.leaf va).toCowPage }) := by rw [← hmarked]
    have hkernel : marked.kernel = memory.kernel := by rw [← hmarked]
    have htarget : target (found.table.leaf va).toCowPage = target (found.table.leaf va) := rfl
    have hkeptMarked : Kept allowed none marked :=
      hkept.mark hva hfound hvalid htarget nofun hmarked.symm
    have hmapped : mapped marked parent ⟨va / pgSize, hva⟩ = some (found.table.leaf va).ppn := by
      rw [mapped_set hva hfound hkernel hspaces, if_pos ⟨rfl, rfl⟩]
      exact target_eq_some hvalid
    have hopen : sole marked (.piece parent (.page ⟨va / pgSize, hva⟩)) =
        false := by
      rw [sole_set_self hva hfound hspaces]
      exact Bool.and_false _
    refine ensures_addCount.mpr ⟨fun _ => trivial, fun _ => ?_⟩
    rw [map_eq_mapPage haligned]
    refine (yields_mapPage (hkeptMarked.share hmapped hopen) hva ?_ ?_).imp_returned ?_
    · nofun
    · intro other vpn hother
      exact congrArg Fin.val (hkeptMarked.placed.aligned other vpn parent
        ⟨va / pgSize, hva⟩ _ hother hmapped)
    · rintro done last ⟨rfl, hlast, hprofile⟩
      exact ⟨rfl, hlast, hprofile.trans (profile_set hva hfound hspaces)⟩

/-- A fresh page with a copy is in hand, and nobody maps it. -/
theorem kept_copied (hkept : Kept allowed none memory) {rest : List ℕ}
    (hfree : memory.free = frame :: rest) (source : ℕ) {copied : Memory}
    (hcopied : copied = { memory.taken frame rest with
      bytes := update (memory.taken frame rest).bytes frame
        ((memory.taken frame rest).bytes source) }) :
    Kept allowed (some frame) copied ∧ copied.count frame = 1 ∧
      ∀ other vpn, mapped copied other vpn ≠ some frame := by
  subst hcopied
  have hlift := (hkept.lift hfree).withBytes (update (memory.taken frame rest).bytes frame
    ((memory.taken frame rest).bytes source))
  have hcount : (memory.taken frame rest).count frame = 1 := update_self frame 1 memory.count
  exact ⟨hlift, hcount, not_mapped_of_count hlift hcount⟩

/-- Copying a page maps a fresh one in the child. -/
theorem yields_copyOnePage (hkept : Kept allowed none memory)
    (haligned : va % pgSize = 0) (hva : va / pgSize < userPages) :
    Yields (copyOnePage parent child va) memory fun done next =>
      done = true ∧ Kept (fun other vpn => allowed other vpn ∨
        other = child ∧ vpn = va / pgSize) none next ∧ profile next = profile memory := by
  simp only [Yields, copyOnePage, ensures_bind]
  refine ensures_space.mpr ⟨fun _ => trivial, fun found hfound => ?_⟩
  cases found.table.lookup va with
  | none => trivial
  | some place =>
    refine ensures_ite.mpr ⟨fun hvalid => ?_, fun _ => trivial⟩
    simp only [ensures_bind]
    refine ensures_alloc.mpr ⟨fun _ => trivial, fun frame rest hfree => ?_⟩
    obtain ⟨hcopied, hcount, hnone⟩ := kept_copied hkept hfree (found.table.get place).ppn rfl
    rw [copyPage, ensures_modify]
    rw [map_eq_mapPage haligned]
    refine (yields_mapPage hcopied hva (fun _ => hcount) ?_).imp_returned ?_
    · intro other vpn hother
      exact absurd hother (hnone other vpn)
    · rintro done last ⟨rfl, hlast, hprofile⟩
      exact ⟨rfl, hlast, hprofile.trans (profile_withBytes _ _)⟩

/-- A store page fault makes the page of the process its own. -/
theorem yields_uloadPage (hkept : Kept allowed none memory) (hva : va / pgSize < userPages)
    (hvalid : ∀ space, memory.spaces proc = some space → (space.table.leaf va).v = true) :
    Yields (uloadPage proc va) memory fun _ next =>
      Kept allowed none next ∧ profile next = profile memory := by
  simp only [Yields, uloadPage, ensures_bind]
  refine ensures_space.mpr ⟨fun _ => trivial, fun found hfound => ?_⟩
  have hleaf := hvalid found hfound
  have hformed := hkept.formed proc found hfound
  rw [hformed.lookup_eq (le_maxVa_of_user hva) hleaf]
  simp only [ensures_bind]
  refine ensures_getCount.mpr ⟨fun _ => trivial, fun _ => ?_⟩
  refine ensures_ite.mpr ⟨fun hcount => ?_, fun _ => ?_⟩
  · simp only [ensures_bind]
    refine (ensures_modifyTable hfound).mpr ?_
    have htarget : target (found.table.leaf va).addWriteBit = target (found.table.leaf va) := rfl
    exact ⟨hkept.mark hva hfound hleaf htarget (fun _ => hcount) rfl, profile_set hva hfound rfl⟩
  · simp only [ensures_bind]
    refine ensures_alloc.mpr ⟨fun _ => trivial, fun frame rest hfree => ?_⟩
    obtain ⟨hcopied, hcount, hnone⟩ := kept_copied hkept hfree (found.table.leaf va).ppn rfl
    have hspaces : ∀ bytes, ({ memory.taken frame rest with bytes := bytes } : Memory).spaces proc =
        some found := fun _ => hfound
    rw [copyPage, ensures_modify, ensures_modifyTable (hspaces _)]
    have hexchange := hcopied.exchange hva hfound (hformed.bottom_under _ _ _ hleaf)
      (target_withPerm (found.table.leaf va).addWriteBit) (fun _ => hcount)
      (fun other vpn hother => absurd hother (hnone other vpn)) rfl
    rw [target_eq_some hleaf] at hexchange
    refine ensures_dealloc.mpr ⟨fun _ => trivial, fun _ =>
      ⟨hexchange.release.weaken ?_, profile_set hva hfound rfl⟩⟩
    rintro other vpn _ (hallowed | ⟨rfl, rfl⟩)
    · exact hallowed
    · have hmapped := mapped_eq_target hva hfound
      rw [target_eq_some hleaf] at hmapped
      exact hkept.placed.within other ⟨va / pgSize, hva⟩ _ hmapped

/-- The loop over a whole number of pages: `before` is what is known before the
turn for each page. -/
theorem ensures_pagesUntil {turn : ℕ → MemM Bool} {before : ℕ → Memory → Prop}
    {stopped : Panic → Memory → Prop} (turns pages first : ℕ)
    (hturns : pages < turns) (hfirst : before first memory)
    (hturn : ∀ vpn memory, first ≤ vpn → vpn < first + pages →
      before vpn memory → Ensures (turn (vpn * pgSize)) memory
        (fun done next => done = true ∧ before (vpn + 1) next) stopped) :
    Ensures (pagesUntil turn ((first + pages) * pgSize) turns (first * pgSize))
      memory (fun done next => done = true ∧ before (first + pages) next)
      stopped := by
  induction turns generalizing pages first memory with
  | zero => omega
  | succ turns ih =>
    refine ensures_ite.mpr ⟨fun hend => ?_, fun hmore => ?_⟩
    · have hsame : first = first + pages := Nat.eq_of_mul_eq_mul_right (by decide) hend
      rw [← hsame]
      exact ⟨rfl, hfirst⟩
    · obtain ⟨rest, rfl⟩ : ∃ rest, pages = rest + 1 := by
        cases pages with
        | zero => exact absurd rfl hmore
        | succ rest => exact ⟨rest, rfl⟩
      apply Ensures.bind (hturn first memory (le_refl _) (by omega) hfirst)
      rintro _ middle ⟨rfl, hmiddle⟩
      have hstop : first + (rest + 1) = first + 1 + rest := by omega
      rw [if_pos rfl, addPage, ← Nat.succ_mul, hstop]
      apply ih rest (first + 1) (by omega) hmiddle
      intro vpn memory hlow hhigh
      exact hturn vpn memory (by omega) (by omega)

/-- A loop whose end is not a whole number of pages away never reaches it. -/
theorem ensures_pagesUntil_never {turn : ℕ → MemM Bool} {stop : ℕ}
    (turns va : ℕ) (memory : Memory) (hnever : va % pgSize ≠ stop % pgSize) :
    Ensures (pagesUntil turn stop turns va) memory
      (fun done _ => done = false) fun _ _ => True := by
  induction turns generalizing va memory with
  | zero => trivial
  | succ turns ih =>
    refine ensures_ite.mpr ⟨fun hend => ?_, fun _ => ?_⟩
    · exact absurd (congrArg (· % pgSize) hend) hnever
    · have hturn : Ensures (turn va) memory (fun _ _ => True) fun _ _ => True := by
        unfold Ensures
        cases turn va memory <;> trivial
      refine Ensures.bind hturn ?_
      intro done next _
      refine ensures_ite.mpr ⟨fun _ => ih (addPage va) next ?_, fun _ => rfl⟩
      rwa [addPage, Nat.add_mod_right]

/-- The loop over the pages of a range returns `Ok` only if the range has whole
pages. -/
theorem yields_untilEnd {turn : ℕ → MemM Bool} {size first : ℕ}
    (hturn : ∀ {allowed memory} {va : ℕ}, va % pgSize = 0 →
      va / pgSize < userPages → Kept allowed none memory → Yields (turn va) memory fun done next =>
          done = true ∧ Kept (fun other vpn => allowed other vpn ∨
            other = child ∧ vpn = va / pgSize) none next ∧ profile next = profile memory)
    (hkept : Kept allowed none memory) (hrange : first + size / pgSize ≤ userPages) :
    Yields (untilEnd turn (first * pgSize) size) memory fun done next =>
      done = true → Kept (fun other vpn => allowed other vpn ∨
        other = child ∧ first ≤ vpn ∧ vpn < first + size / pgSize) none next ∧
          profile next = profile memory := by
  by_cases haligned : size % pgSize = 0
  · have hstop : size + first * pgSize = (first + size / pgSize) * pgSize := by
      rw [Nat.add_mul, Nat.div_mul_cancel (Nat.dvd_of_mod_eq_zero haligned), Nat.add_comm]
    unfold untilEnd
    rw [hstop]
    have hturns : size / pgSize < vpnCount + 1 := by
      have hcount : userPages ≤ vpnCount := by decide
      omega
    let before : ℕ → Memory → Prop := fun stop next => Kept (fun other vpn => allowed other vpn ∨
        other = child ∧ first ≤ vpn ∧ vpn < stop) none next ∧ profile next = profile memory
    have hfirst : before first memory := ⟨hkept.weaken fun _ _ _ => Or.inl, rfl⟩
    refine (ensures_pagesUntil (vpnCount + 1) (size / pgSize) first hturns
      hfirst ?_).imp_returned fun _ _ hdone _ => hdone.2
    rintro vpn middle hlow hhigh ⟨hmiddle, hprofile⟩
    have hdiv : vpn * pgSize / pgSize = vpn := Nat.mul_div_cancel _ (by decide)
    have hvpn : vpn * pgSize / pgSize < userPages := by
      rw [hdiv]
      omega
    refine (hturn (Nat.mul_mod_left vpn pgSize) hvpn hmiddle).imp_returned ?_
    rintro _ last ⟨rfl, hlast, hsame⟩
    refine ⟨rfl, hlast.weaken ?_, hsame.trans hprofile⟩
    rw [hdiv]
    rintro other each _ ((hallowed | ⟨rfl, hbetween⟩) | ⟨rfl, rfl⟩)
    · exact Or.inl hallowed
    · exact Or.inr ⟨rfl, by omega⟩
    · exact Or.inr ⟨rfl, hlow, by omega⟩
  · refine (ensures_pagesUntil_never (vpnCount + 1) _ memory ?_).imp_returned ?_
    · rw [Nat.mul_mod_left, Nat.add_mul_mod_self_right]
      exact fun hzero => haligned hzero.symm
    · rintro _ _ rfl
      nofun

def guardPage : ℕ := 67108860

theorem yields_ucopyStack (hkept : Kept allowed none memory) :
    Yields (ucopyStack parent child) memory fun _ next =>
      Kept (fun other vpn => allowed other vpn ∨ other = child ∧ guardPage ≤ vpn) none next ∧
          profile next = profile memory := by
  have hcopy : Yields (untilEnd (copyOnePage parent child)
      (guardPage * pgSize) (pgSize + pgSize)) memory _ := yields_untilEnd (fun haligned hva hkept =>
      yields_copyOnePage hkept haligned hva) hkept (by decide)
  simp only [Yields, ucopyStack, ucopy, ensures_bind]
  refine hcopy.imp_returned ?_
  intro done next hdone
  refine ensures_ite.mpr ⟨fun htrue => ?_, fun _ => trivial⟩
  obtain ⟨hnext, hprofile⟩ := hdone htrue
  refine ⟨hnext.weaken ?_, hprofile⟩
  rintro other vpn _ (hallowed | ⟨rfl, hlow, -⟩)
  · exact Or.inl hallowed
  · exact Or.inr ⟨rfl, hlow⟩

end Pages

end RxOs.Sharing
