import RxOs.Memory.Releasing
import RxOs.Memory.Sharing

/-!
# The pages of processes

Between two operations of the kernel every page is held for something, and the
user pages of a process lie below its size or at its stack.  The operations on
whole address spaces keep this: `user_init`, `fork`, `grow_proc` and `free_proc`.
-/

namespace RxOs.ProcessPages

open Function Exec RefCount PageTable Frames UserCopy AddressSpace Holdings
open Releasing Walking Sharing
open Kernel (Proc)

/-! ## The invariant -/

/-- Above the user pages the trap frame is mapped, and nothing is mapped for the
user. -/
structure Sealed (upper : ℕ → Option Pte) : Prop where
  taken : (upper userPages).isSome = true
  closed : ∀ vpn pte, upper vpn = some pte → pte.u = false

/-- A process maps pages below its size, its stack and the guard page. -/
def extent (profiles : Proc → Option Profile) (proc : Proc) (vpn : ℕ) : Prop :=
  ∃ found, profiles proc = some found ∧ (vpn * pgSize < found.size ∨ guardPage ≤ vpn)

/-- The invariant between two operations. -/
structure Owned (memory : Memory) : Prop where
  kept : Kept (extent (profile memory)) none memory
  fits : ∀ proc found, profile memory proc = some found → found.size ≤ trapframe
  locked : ∀ proc found, profile memory proc = some found → Sealed found.upper

section Invariant

variable {memory next : Memory} {proc : Proc} {found : Profile}
variable {allowed : Proc → ℕ → Prop}

/-- The invariant after an operation on one process. -/
theorem owned_of_update (howned : Owned memory)
    (hprofile : profile next = update (profile memory) proc (some found))
    (hsize : found.size ≤ trapframe) (hlocked : Sealed found.upper) (hkept : Kept allowed none next)
    (hextent : ∀ vpn < userPages, allowed proc vpn → vpn * pgSize < found.size ∨ guardPage ≤ vpn)
    (hother : ∀ other ≠ proc, ∀ vpn < userPages, allowed other vpn →
      extent (profile memory) other vpn) : Owned next := by
  have hself : profile next proc = some found := by rw [hprofile, update_self]
  have hsame : ∀ other ≠ proc, profile next other = profile memory other := by
    intro other hne
    rw [hprofile, update_of_ne hne]
  refine ⟨hkept.weaken ?_, ?_, ?_⟩
  · intro other vpn hvpn hallowed
    by_cases hproc : other = proc
    · subst hproc
      exact ⟨found, hself, hextent vpn hvpn hallowed⟩
    · obtain ⟨held, hheld, hrange⟩ := hother other hproc vpn hvpn hallowed
      exact ⟨held, (hsame other hproc).trans hheld, hrange⟩
  · intro other held hheld
    by_cases hproc : other = proc
    · rw [hproc, hself] at hheld
      rwa [← Option.some.inj hheld]
    · rw [hsame other hproc] at hheld
      exact howned.fits other held hheld
  · intro other held hheld
    by_cases hproc : other = proc
    · rw [hproc, hself] at hheld
      rwa [← Option.some.inj hheld]
    · rw [hsame other hproc] at hheld
      exact howned.locked other held hheld

/-- The invariant after an operation that changes no profile. -/
theorem owned_of_same (howned : Owned memory) (hprofile : profile next = profile memory)
    (hkept : Kept (extent (profile memory)) none next) : Owned next := by
  refine ⟨?_, ?_, ?_⟩
  · rw [hprofile]
    exact hkept
  · rw [hprofile]
    exact howned.fits
  · rw [hprofile]
    exact howned.locked

end Invariant

/-! ## Creation of a process -/

section Creation

variable {allowed : Proc → ℕ → Prop} {memory next : Memory} {proc : Proc}

/-- A process gets its trap frame and its root table. -/
theorem kept_create (hkept : Kept allowed none memory)
    (hnone : memory.spaces proc = none) {frame root : ℕ} {rest : List ℕ}
    (hfree : memory.free = frame :: root :: rest)
    (hnext : next = { Memory.taken (Memory.taken memory frame (root :: rest))
        root rest with
      spaces := update memory.spaces proc (some ⟨0, root, some frame, Table.empty⟩) }) :
    Kept allowed none next ∧ profile next = update (profile memory) proc
      (some ⟨0, some frame, fun _ => none⟩) := by
  have hspaces : next.spaces = update memory.spaces proc
      (some ⟨0, root, some frame, Table.empty⟩) := by rw [hnext]
  have hempty : ∀ piece, refs none memory (.piece proc piece) = none := by
    intro piece
    change (memory.spaces proc).bind _ = none
    rw [hnone]
    rfl
  have hmapped : mapped next = mapped memory := by
    funext other vpn
    change (next.spaces other).bind _ = _
    rw [hspaces]
    by_cases hother : other = proc
    · rw [hother, update_self]
      exact (hempty (.page vpn)).symm
    · rw [update_of_ne hother]
      rfl
  have hsole : sole next = sole memory := by
    funext holder
    match holder with
    | .flight | .kernel _ | .piece _ .root | .piece _ .trapframe
    | .piece _ (.mid _) | .piece _ (.bottom _ _) => rfl
    | .piece other (.page vpn) =>
      change (next.spaces other).any _ = (memory.spaces other).any _
      rw [hspaces]
      by_cases hother : other = proc
      · rw [hother, update_self, hnone]
        rfl
      · rw [update_of_ne hother]
  have hrefs : refs none next = update (update (refs none memory)
      (.piece proc .trapframe) (some frame)) (.piece proc .root) (some root) := by
    funext holder
    cases holder with
    | flight =>
      rw [update_of_ne (by simp), update_of_ne (by simp)]
      rfl
    | kernel slot =>
      rw [update_of_ne (by simp), update_of_ne (by simp), hnext]
      rfl
    | piece other piece =>
      change (next.spaces other).bind _ = _
      rw [hspaces]
      by_cases hother : other = proc
      · subst hother
        rw [update_self]
        cases piece with
        | root => rw [update_self]; rfl
        | trapframe => rw [update_of_ne (by simp), update_self]; rfl
        | _ =>
          rw [update_of_ne (by simp), update_of_ne (by simp), hempty]
          rfl
      · rw [update_of_ne hother, update_of_ne fun heq => hother (by
          injection heq), update_of_ne fun heq => hother (by injection heq)]
        rfl
  refine ⟨⟨?_, ?_, ?_⟩, ?_⟩
  · have htrapframe : (pool none memory).refs (.piece proc .trapframe) =
        none := hempty .trapframe
    have hfirst : Balanced (⟨root :: rest, update memory.count frame 1,
        update (refs none memory) (.piece proc .trapframe) (some frame),
        sole memory⟩ : Pool Holder ℕ) := hkept.balanced.take htrapframe hfree rfl rfl fun _ _ => rfl
    refine hfirst.take ?_ ?_ ?_ hrefs ?_
    · exact (update_of_ne (by simp) _ _).trans (hempty .root)
    · rw [hnext]
      rfl
    · rw [hnext]
      rfl
    · intro other _
      exact congrFun hsole other
  · exact formed_of_update hkept.formed hspaces Table.formed_empty
  · rw [hmapped]
    exact hkept.placed
  · have hupper : upperEntry Table.empty = fun _ => none := by
      funext vpn
      exact if_neg fun h => nomatch h.2.2
    rw [profile_of_update hspaces, Option.map_some, hupper]

/-- The two pages that the kernel maps in every table. -/
theorem sealed_kernel (code frame : ℕ) :
    Sealed (update (update (fun _ => none) (trampoline / pgSize)
      (some (Pte.permRX.withPerm code))) (trapframe / pgSize)
        (some (Pte.permRW.withPerm frame))) where
  taken := rfl
  closed := by
    intro vpn pte hpte
    by_cases htrapframe : vpn = trapframe / pgSize
    · rw [htrapframe, update_self] at hpte
      rw [← Option.some.inj hpte]
      rfl
    · rw [update_of_ne htrapframe] at hpte
      by_cases htrampoline : vpn = trampoline / pgSize
      · rw [htrampoline, update_self] at hpte
        rw [← Option.some.inj hpte]
        rfl
      · rw [update_of_ne htrampoline] at hpte
        cases hpte

theorem yields_allocProc (hkept : Kept allowed none memory) (hnone : memory.spaces proc = none) :
    Yields (allocProc proc) memory fun _ next =>
      Kept allowed none next ∧ ∃ found : Profile, found.size = 0 ∧ Sealed found.upper ∧
          profile next = update (profile memory) proc (some found) := by
  simp only [Yields, allocProc, ensures_bind]
  refine ensures_alloc.mpr ⟨fun _ => trivial, fun frame after hfree => ?_⟩
  refine ensures_alloc.mpr ⟨fun _ => trivial, fun root rest hafter => ?_⟩
  change after = root :: rest at hafter
  subst hafter
  rw [setSpace, ensures_modify]
  obtain ⟨hcreated, hprofile⟩ := kept_create hkept hnone hfree rfl
  rw [map_eq_mapPage (by decide)]
  refine (yields_mapPage_upper hcreated (by decide) (by decide)).imp_returned ?_
  rintro done first ⟨-, hfirst, hfirstProfile⟩
  rw [map_eq_mapPage (by decide)]
  refine (yields_mapPage_upper hfirst (by decide) (by decide)).imp_returned ?_
  rintro done last ⟨-, hlast, hlastProfile⟩
  rw [hfirstProfile] at hlastProfile
  simp only [hprofile, update_self, Option.map_some, update_idem] at hlastProfile
  exact ⟨hlast, _, rfl, sealed_kernel _ _, hlastProfile⟩

end Creation

/-! ## The operations -/

section Operations

variable {allowed : Proc → ℕ → Prop} {memory : Memory}
variable {proc parent child : Proc}

theorem yields_setSize (hkept : Kept allowed none memory) (size : ℕ) :
    Yields (setSize proc size) memory fun _ next =>
      Kept allowed none next ∧ profile next = update (profile memory) proc
        ((profile memory proc).map fun found => { found with size := size }) := by
  simp only [Yields, setSize, ensures_bind]
  refine ensures_space.mpr ⟨fun _ => trivial, fun space hspace => ?_⟩
  rw [setSpace, ensures_modify]
  generalize hnext : { memory with
    spaces := update memory.spaces proc (some { space with size := size }) } = next
  have hspaces : next.spaces = update memory.spaces proc
      (some { space with size := size }) := by rw [← hnext]
  have hkernel : next.kernel = memory.kernel := by rw [← hnext]
  have hrefs : ∀ flight, refs flight next = refs flight memory := by
    intro flight
    refine refs_of_same hspace hkernel hspaces ?_
    funext piece
    cases piece <;> rfl
  have hsole : sole next = sole memory := sole_of_same hspace hspaces fun _ => rfl
  have hmapped : mapped next = mapped memory := by
    funext other vpn
    rw [mapped_eq_refs none, mapped_eq_refs none, hrefs]
  refine ⟨⟨?_, ?_, ?_⟩, ?_⟩
  · refine hkept.balanced.mark ?_ ?_ (hrefs none) ?_
    · rw [← hnext]
      rfl
    · rw [← hnext]
      rfl
    · intro holder frame _ hmark
      change sole next holder = true at hmark
      rw [hsole] at hmark
      exact Or.inl hmark
  · exact formed_of_update hkept.formed hspaces (hkept.formed proc space hspace)
  · rw [hmapped]
    exact hkept.placed
  · rw [profile_eq_some hspace]
    exact profile_of_update hspaces

/-- A fresh page is mapped at a user page. -/
theorem yields_alloc_map {Value : Type} (hkept : Kept allowed none memory)
    {va : ℕ} (haligned : va % pgSize = 0) (hva : va / pgSize < userPages)
    {perm : Pte} {rest : ℕ → Bool → MemM Value} {returned : Value → Memory → Prop}
    (hrest : ∀ frame next, Kept (fun other vpn => allowed other vpn ∨
      other = proc ∧ vpn = va / pgSize) none next → profile next = profile memory →
          Yields (rest frame true) next returned) :
    Yields (do
      let frame ← alloc
      let mapped ← map proc va frame pgSize perm
      rest frame mapped) memory returned := by
  simp only [Yields, ensures_bind]
  refine ensures_alloc.mpr ⟨fun _ => trivial, fun frame free hfree => ?_⟩
  have hlift := hkept.lift hfree
  have hcount : (Memory.taken memory frame free).count frame = 1 := update_self frame 1 memory.count
  rw [map_eq_mapPage haligned]
  refine (yields_mapPage hlift hva (fun _ => hcount) ?_).imp_returned ?_
  · intro other vpn hother
    exact absurd hother (not_mapped_of_count hlift hcount other vpn)
  · rintro done next ⟨rfl, hnext, hprofile⟩
    exact hrest frame next hnext hprofile

theorem yields_uallocStack (hkept : Kept allowed none memory) :
    Yields (uallocStack proc) memory fun _ next =>
      Kept (fun other vpn => allowed other vpn ∨ other = proc ∧ guardPage ≤ vpn) none next ∧
          profile next = profile memory := by
  unfold uallocStack
  refine yields_alloc_map hkept (by decide) (by decide) ?_
  intro _ stacked hstacked hstackProfile
  rw [if_pos rfl]
  refine yields_alloc_map hstacked (by decide) (by decide) ?_
  intro _ guarded hguarded hguardProfile
  refine ⟨hguarded.weaken ?_, hguardProfile.trans hstackProfile⟩
  rintro other vpn _ ((hallowed | ⟨rfl, rfl⟩) | ⟨rfl, rfl⟩)
  · exact Or.inl hallowed
  · exact Or.inr ⟨rfl, by decide⟩
  · exact Or.inr ⟨rfl, by decide⟩

/-- The first process. -/
theorem yields_userInit (howned : Owned memory)
    (hnone : memory.spaces proc = none) (code : List UInt8) :
    Yields (userInit proc code) memory fun _ next => Owned next := by
  simp only [Yields, userInit]
  refine Ensures.bind (yields_allocProc howned.kept hnone) ?_
  rintro _ created ⟨hcreated, found, -, hsealed, hprofile⟩
  refine yields_alloc_map hcreated (by decide) (by decide) ?_
  intro frame loaded hloaded hloadedProfile
  refine Ensures.bind (yields_uallocStack hloaded) ?_
  rintro _ stacked ⟨hstacked, hstackedProfile⟩
  simp only [ensures_bind, ensures_modify]
  refine (yields_setSize (hstacked.withBytes _) pgSize).imp_returned ?_
  rintro _ last ⟨hlast, hlastProfile⟩
  rw [profile_withBytes stacked, hstackedProfile, hloadedProfile, hprofile,
    update_self, update_idem, Option.map_some] at hlastProfile
  refine owned_of_update howned hlastProfile ?_ hsealed hlast ?_ ?_
  · change pgSize ≤ trapframe
    decide
  · rintro vpn hvpn ((hallowed | ⟨-, rfl⟩) | ⟨-, hguard⟩)
    · obtain ⟨held, hheld, hrange⟩ := hallowed
      rw [profile, hnone] at hheld
      cases hheld
    · left
      change 0 / pgSize * pgSize < pgSize
      decide
    · exact Or.inr hguard
  · rintro other hother vpn hvpn ((hallowed | ⟨rfl, -⟩) | ⟨rfl, -⟩)
    · exact hallowed
    · exact absurd rfl hother
    · exact absurd rfl hother

theorem div_pgSize_le {size : ℕ} (hsize : size ≤ trapframe) : size / pgSize ≤ userPages := by
  have htrapframe : trapframe = 274877898752 := rfl
  have hpages : userPages = 67108862 := rfl
  rw [show pgSize = 4096 from rfl]
  omega

/-- `fork`. -/
theorem yields_fork (howned : Owned memory) (hnone : memory.spaces child = none) :
    Yields (fork parent child) memory fun _ next => Owned next := by
  simp only [Yields, fork]
  refine Ensures.bind (yields_allocProc howned.kept hnone) ?_
  rintro _ created ⟨hcreated, fresh, hzero, hsealed, hprofile⟩
  simp only [ensures_bind]
  refine ensures_space.mpr ⟨fun _ => trivial, fun found hfound => ?_⟩
  have hsize : found.size ≤ trapframe := by
    have hparent := profile_eq_some hfound
    rw [hprofile] at hparent
    by_cases hsame : parent = child
    · rw [hsame, update_self] at hparent
      have hfresh : fresh.size = found.size :=
        congrArg Profile.size (Option.some.inj hparent)
      omega
    · rw [update_of_ne hsame] at hparent
      exact howned.fits parent _ hparent
  have hpages := div_pgSize_le hsize
  have hshare : Yields (untilEnd (shareOnePage parent child) (0 * pgSize) found.size) created _ :=
    yields_untilEnd (fun haligned hva hkept =>
      yields_shareOnePage hkept haligned hva) hcreated (by omega)
  rw [Nat.zero_mul] at hshare
  refine hshare.imp_returned ?_
  intro done shared hdone
  refine ensures_ite.mpr ⟨fun htrue => ?_, fun _ => trivial⟩
  obtain ⟨hshared, hsharedProfile⟩ := hdone htrue
  simp only [ensures_bind]
  refine (yields_ucopyStack hshared).imp_returned ?_
  rintro _ copied ⟨hcopied, hcopiedProfile⟩
  refine ensures_unwrap.mpr ⟨fun _ => trivial, fun source _ => ?_⟩
  refine ensures_space.mpr ⟨fun _ => trivial, fun space _ => ?_⟩
  refine ensures_unwrap.mpr ⟨fun _ => trivial, fun target _ => ?_⟩
  rw [copyTrapframe, ensures_modify]
  refine (yields_setSize (hcopied.withBytes _) found.size).imp_returned ?_
  rintro _ last ⟨hlast, hlastProfile⟩
  rw [profile_withBytes copied, hcopiedProfile, hsharedProfile, hprofile,
    update_self, update_idem, Option.map_some] at hlastProfile
  refine owned_of_update howned hlastProfile hsize hsealed hlast ?_ ?_
  · rintro vpn hvpn ((hallowed | ⟨-, -, hvpn⟩) | ⟨-, hguard⟩)
    · obtain ⟨held, hheld, hrange⟩ := hallowed
      rw [profile, hnone] at hheld
      cases hheld
    · left
      rw [Nat.zero_add] at hvpn
      change vpn * pgSize < found.size
      have hpage : vpn * pgSize < found.size / pgSize * pgSize :=
        Nat.mul_lt_mul_of_pos_right hvpn (by decide)
      exact hpage.trans_le (Nat.div_mul_le_self _ _)
    · exact Or.inr hguard
  · rintro other hother vpn hvpn ((hallowed | ⟨rfl, -⟩) | ⟨rfl, -⟩)
    · exact hallowed
    · exact absurd rfl hother
    · exact absurd rfl hother

/-- The loop of `ualloc` stops at the trap frame at the latest. -/
theorem yields_uallocPages {found : Profile} (start pages first : ℕ)
    (hkept : Kept allowed none memory) (hprofile : profile memory proc = some found)
    (hlocked : Sealed found.upper) (hfirst : first ≤ userPages) :
    Yields (uallocPages proc start pages (first * pgSize)) memory
      fun done next => done = true ∧ first + pages ≤ userPages ∧
        Kept (fun other vpn => allowed other vpn ∨
          other = proc ∧ first ≤ vpn ∧ vpn < first + pages) none next ∧
            profile next = profile memory := by
  induction pages generalizing first allowed memory with
  | zero => exact ⟨rfl, hfirst, hkept.weaken fun _ _ _ => Or.inl, rfl⟩
  | succ pages ih =>
    have hdiv : first * pgSize / pgSize = first := Nat.mul_div_cancel _ (by decide)
    have haligned : first * pgSize % pgSize = 0 := Nat.mul_mod_left _ _
    rw [uallocPages]
    by_cases huser : first < userPages
    · refine yields_alloc_map hkept haligned (by rwa [hdiv]) ?_
      intro _ middle hmiddle hsame
      rw [if_pos rfl, addPage, ← Nat.succ_mul]
      rw [hdiv] at hmiddle
      refine (ih (first + 1) hmiddle (by rwa [hsame]) huser).imp_returned ?_
      rintro done last ⟨rfl, hrange, hlast, hlastProfile⟩
      refine ⟨rfl, by omega, hlast.weaken ?_, hlastProfile.trans hsame⟩
      rintro other vpn _ ((hallowed | ⟨rfl, rfl⟩) | ⟨rfl, hlow, hhigh⟩)
      · exact Or.inl hallowed
      · exact Or.inr ⟨rfl, le_refl _, by omega⟩
      · exact Or.inr ⟨rfl, by omega, by omega⟩
    · obtain rfl : first = userPages := by omega
      simp only [Yields, ensures_bind]
      refine ensures_alloc.mpr ⟨fun _ => trivial, fun frame rest hfree => ?_⟩
      rw [map_eq_mapPage haligned]
      exact yields_mapPage_taken (hkept.lift hfree) (by decide) hprofile
        (by rw [hdiv]; exact hlocked.taken) _

def endPage (size : ℕ) : ℕ := (size + pgSize - 1) / pgSize

theorem lt_endPage {vpn size : ℕ} : vpn < endPage size ↔ vpn * pgSize < size := by
  unfold endPage
  rw [show pgSize = 4096 from rfl]
  omega

theorem endPage_le {size : ℕ} (hsize : size ≤ trapframe) : endPage size ≤ userPages := by
  have htrapframe : trapframe = 274877898752 := rfl
  have hpages : userPages = 67108862 := rfl
  unfold endPage
  rw [show pgSize = 4096 from rfl]
  omega

/-- What a change of size has to keep. -/
theorem owned_of_resize (howned : Owned memory) {space : Space}
    (hspace : memory.spaces proc = some space) {next last : Memory} {size : ℕ}
    (hsize : size ≤ trapframe) (hnext : profile next = profile memory)
    (hlast : Kept allowed none last) (hlastProfile : profile last = update (profile next) proc
      ((profile next proc).map fun found => { found with size := size }))
    (hextent : ∀ other vpn, vpn < userPages → allowed other vpn →
      if other = proc then vpn * pgSize < size ∨ guardPage ≤ vpn
      else extent (profile memory) other vpn) : Owned last := by
  have hbefore := profile_eq_some hspace
  have hlocked := howned.locked proc _ hbefore
  rw [hnext, hbefore, Option.map_some] at hlastProfile
  refine owned_of_update howned hlastProfile hsize hlocked hlast ?_ ?_
  · intro vpn hvpn hallowed
    have hrange := hextent proc vpn hvpn hallowed
    rwa [if_pos rfl] at hrange
  · intro other hother vpn hvpn hallowed
    have hrange := hextent other vpn hvpn hallowed
    rwa [if_neg hother] at hrange

theorem extent_self {space : Space} {vpn : ℕ} (hspace : memory.spaces proc = some space)
    (hextent : extent (profile memory) proc vpn) : vpn * pgSize < space.size ∨ guardPage ≤ vpn := by
  obtain ⟨found, hfound, hrange⟩ := hextent
  rw [profile_eq_some hspace] at hfound
  rwa [← Option.some.inj hfound] at hrange

/-- `grow_proc`. -/
theorem yields_growProc (howned : Owned memory) (count : ℤ) :
    Yields (growProc proc count) memory fun _ next => Owned next := by
  simp only [Yields, growProc, ensures_bind]
  refine ensures_space.mpr ⟨fun _ => trivial, fun space hspace => ?_⟩
  have hsize := howned.fits proc _ (profile_eq_some hspace)
  change space.size ≤ trapframe at hsize
  refine ensures_ite.mpr ⟨fun _ => ?_, fun _ => ?_⟩
  · generalize (((space.size : ℤ) + count) % (usizeSize : ℤ)).toNat = newSize
    simp only [ensures_bind, udealloc]
    refine ensures_ite.mpr ⟨fun hlarger => ?_, fun hsmaller => ?_⟩
    · refine (yields_setSize howned.kept space.size).imp_returned ?_
      rintro _ last ⟨hlast, hprofile⟩
      refine owned_of_resize howned hspace hsize rfl hlast hprofile ?_
      intro other vpn _ hextent
      split
      · next hother => exact extent_self (hother ▸ hspace) hextent
      · exact hextent
    · have hnew : newSize ≤ trapframe := by omega
      have hends := endPage_le hsize
      refine ensures_ite.mpr ⟨fun hfewer => ?_, fun hsame => ?_⟩
      · change endPage newSize * pgSize < endPage space.size * pgSize at hfewer
        have hfewer := Nat.lt_of_mul_lt_mul_right hfewer
        have hpages : (pageRoundUp space.size - pageRoundUp newSize) / pgSize =
            endPage space.size - endPage newSize := by
          change (endPage space.size * pgSize - endPage newSize * pgSize) / pgSize = _
          rw [← Nat.sub_mul, Nat.mul_div_cancel _ (by decide)]
        simp only [ensures_bind, hpages]
        have hunmap : Yields (uunmap proc (endPage newSize * pgSize)
            (endPage space.size - endPage newSize) true) memory _ :=
          yields_uunmap howned.kept (by omega)
        refine hunmap.imp_returned ?_
        rintro _ next ⟨hnext, hprofile⟩
        refine (yields_setSize hnext newSize).imp_returned ?_
        rintro _ last ⟨hlast, hlastProfile⟩
        refine owned_of_resize howned hspace hnew hprofile hlast hlastProfile ?_
        rintro other vpn _ ⟨hextent, hrange⟩
        split
        · next hother =>
            refine (extent_self (hother ▸ hspace) hextent).imp_left ?_
            intro hvpn
            rw [← lt_endPage] at hvpn ⊢
            by_contra hhigh
            exact hrange ⟨hother, by omega, by omega⟩
        · exact hextent
      · change ¬endPage newSize * pgSize < endPage space.size * pgSize at hsame
        have hsame := Nat.le_of_mul_le_mul_right (Nat.not_lt.mp hsame) (by decide)
        refine (yields_setSize howned.kept newSize).imp_returned ?_
        rintro _ last ⟨hlast, hlastProfile⟩
        refine owned_of_resize howned hspace hnew rfl hlast hlastProfile ?_
        intro other vpn _ hextent
        split
        · next hother =>
            refine (extent_self (hother ▸ hspace) hextent).imp_left ?_
            intro hvpn
            rw [← lt_endPage] at hvpn ⊢
            omega
        · exact hextent
  · refine ensures_ite.mpr ⟨fun _ => howned, fun _ => ?_⟩
    generalize hnew : space.size + count.toNat = newSize
    simp only [ensures_bind, ualloc]
    rw [if_neg (by omega)]
    simp only [ensures_bind]
    have hgrow : Yields (uallocPages proc (pageRoundUp space.size)
        ((newSize - pageRoundUp space.size + pgSize - 1) / pgSize)
          (endPage space.size * pgSize)) memory _ := yields_uallocPages (pageRoundUp space.size)
        ((newSize - pageRoundUp space.size + pgSize - 1) / pgSize)
        (endPage space.size) howned.kept (profile_eq_some hspace)
        (howned.locked proc _ (profile_eq_some hspace)) (endPage_le hsize)
    refine hgrow.imp_returned ?_
    rintro done next ⟨rfl, hpages, hnext, hprofile⟩
    simp only [if_true, ensures_bind, ensures_pure]
    refine (yields_setSize hnext newSize).imp_returned ?_
    rintro _ last ⟨hlast, hlastProfile⟩
    have hstart : pageRoundUp space.size = endPage space.size * pgSize := rfl
    rw [hstart] at hpages hlast
    have htrapframe : trapframe = 274877898752 := rfl
    have huser : userPages = 67108862 := rfl
    rw [show pgSize = 4096 from rfl] at hpages hlast
    refine owned_of_resize howned hspace (by omega) hprofile hlast hlastProfile ?_
    rintro other vpn _ (hextent | ⟨hother, hlow, hhigh⟩)
    · split
      · next hother =>
          refine (extent_self (hother ▸ hspace) hextent).imp_left ?_
          intro hvpn
          omega
      · exact hextent
    · rw [if_pos hother, show pgSize = 4096 from rfl]
      left
      omega

end Operations

/-! ## Taking a process down -/

section Dropping

variable {proc : Proc} {space : Space}

theorem keeper_balanced (marks : Holder → Bool) :
    Keeper (fun memory held => Balanced (⟨memory.free, memory.count, held, marks⟩ : Pool Holder ℕ))
      fun _ _ => True := by
  intro memory held holder frame hbalanced hheld
  have hsome : (⟨memory.free, memory.count, held, marks⟩ :
      Pool Holder ℕ).refs holder = some frame := hheld
  exact ensures_dealloc.mpr ⟨fun _ => trivial, fun _ =>
    ⟨rfl, hbalanced.drop hsome (dropped_free memory frame) rfl rfl fun _ _ => rfl⟩⟩

variable {allowed : Proc → ℕ → Prop} {memory next : Memory}

/-- The trap frame of a process is given back. -/
theorem kept_dropTrapframe (hkept : Kept allowed none memory)
    (hspace : memory.spaces proc = some space) {frame : ℕ} (hframe : space.trapframe = some frame)
    (hnext : next = { Memory.dropped memory frame with
      spaces := update memory.spaces proc (some { space with trapframe := none }) }) :
    Kept allowed none next ∧ profile next = update (profile memory) proc
      (some ⟨space.size, none, upperEntry space.table⟩) := by
  have hspaces : next.spaces = update memory.spaces proc
      (some { space with trapframe := none }) := by rw [hnext]
  have hkernel : next.kernel = memory.kernel := by rw [hnext]; rfl
  have hholds : holds { space with trapframe := none } = update (holds space) .trapframe none := by
    funext piece
    cases piece with
    | trapframe => rw [update_self]; rfl
    | _ => rw [update_of_ne (by simp)]; rfl
  have hrefs : refs none next = _ := refs_of_update hspace hkernel hspaces hholds
  have hheld : (pool none memory).refs (.piece proc .trapframe) = some frame := by
    change (memory.spaces proc).bind _ = _
    rw [hspace]
    exact hframe
  refine ⟨⟨?_, ?_, ?_⟩, ?_⟩
  · refine hkept.balanced.drop hheld ?_ ?_ hrefs ?_
    · rw [hnext]
      exact dropped_free memory frame
    · rw [hnext]
      rfl
    · intro other _
      exact congrFun (sole_of_same hspace hspaces fun _ => rfl) other
  · exact formed_of_update hkept.formed hspaces (hkept.formed proc space hspace)
  · have hmapped : mapped next = mapped memory := by
      funext other vpn
      rw [mapped_eq_refs none, mapped_eq_refs none, hrefs, update_of_ne (by simp)]
    rw [hmapped]
    exact hkept.placed
  · exact profile_of_update hspaces

/-- A process without user pages and without a trap frame is dropped. -/
theorem kept_remove (hkept : Kept allowed none memory) (hspace : memory.spaces proc = some space)
    (hframe : space.trapframe = none) (hallowed : ∀ vpn < userPages, ¬allowed proc vpn) :
    Yields (do
      dropTable space.table
      dealloc space.root
      setSpace proc none) memory fun _ next => Kept allowed none next ∧
          profile next = update (profile memory) proc none := by
  have hformed := hkept.formed proc space hspace
  have hname : Injective (Holder.piece proc) := fun _ _ heq => by injection heq
  have hreleases := releases_dropRoot hname (keeper_balanced (sole memory))
    hformed (Or.inr fun _ => trivial)
  have hrefs : ∀ piece, refs none memory (.piece proc piece) = holds space piece := by
    intro piece
    change (memory.spaces proc).bind _ = _
    rw [hspace]
    rfl
  have hempty : ∀ vpn, mapped memory proc vpn = none := by
    intro vpn
    cases hmapped : mapped memory proc vpn with
    | none => rfl
    | some frame =>
      exact absurd (hkept.placed.within proc vpn frame hmapped) (hallowed vpn vpn.isLt)
  have hdropped := hreleases memory (refs none memory) hkept.balanced fun piece _ => hrefs piece
  simp only [Yields, ensures_bind] at hdropped ⊢
  refine hdropped.imp_returned fun _ _ hrest => hrest.imp_returned ?_
  rintro _ last ⟨⟨hspaces, hkernel, -⟩, kept, hbalanced, hgone, hsame⟩
  rw [setSpace, ensures_modify]
  generalize hnext : { last with
    spaces := update last.spaces proc none } = next
  have hnextSpaces : next.spaces = update memory.spaces proc none := by rw [← hnext, hspaces]
  have hnextKernel : next.kernel = memory.kernel := by rw [← hnext, hkernel]
  have hnextRefs : refs none next = kept := by
    funext holder
    match holder with
    | .flight => exact (hsame .flight (by simp)).symm
    | .kernel slot =>
      rw [hsame (.kernel slot) (by simp)]
      exact congrFun hnextKernel slot
    | .piece other piece =>
      change (next.spaces other).bind _ = _
      rw [hnextSpaces]
      by_cases hother : other = proc
      · subst hother
        rw [update_self, Option.bind_none]
        by_cases hpiece : (∃ i, Under i piece) ∨ piece = .root
        · exact (hgone piece hpiece).symm
        · rw [hsame, hrefs]
          · match piece with
            | .root => exact absurd (Or.inr rfl) hpiece
            | .trapframe => exact hframe.symm
            | .mid i => exact absurd (Or.inl ⟨i, Or.inr rfl⟩) hpiece
            | .bottom i j => exact absurd (Or.inl ⟨i, Or.inl ⟨j, rfl⟩⟩) hpiece
            | .page vpn =>
              rw [← hrefs]
              exact (hempty vpn).symm
          · rintro each heach heq
            injection heq with _ heq
            exact hpiece (heq ▸ heach)
      · rw [update_of_ne hother, hsame]
        · rfl
        · rintro each - heq
          injection heq with hproc
          exact hother hproc
  have hmapped : mapped next = mapped memory := by
    funext other vpn
    change (next.spaces other).bind _ = _
    rw [hnextSpaces]
    by_cases hother : other = proc
    · rw [hother, update_self, hempty]
      rfl
    · rw [update_of_ne hother]
      rfl
  refine ⟨⟨?_, ?_, ?_⟩, ?_⟩
  · refine hbalanced.mark ?_ ?_ hnextRefs ?_
    · rw [← hnext]
      rfl
    · rw [← hnext]
      rfl
    · intro holder frame _ hmark
      left
      match holder with
      | .flight => exact hmark
      | .kernel _ | .piece _ .root | .piece _ .trapframe
      | .piece _ (.mid _) | .piece _ (.bottom _ _) => rfl
      | .piece other (.page vpn) =>
        change (next.spaces other).any _ = true at hmark
        change (memory.spaces other).any _ = true
        rw [hnextSpaces] at hmark
        by_cases hother : other = proc
        · rw [hother, update_self] at hmark
          cases hmark
        · rwa [update_of_ne hother] at hmark
  · intro other found hfound
    rw [hnextSpaces] at hfound
    by_cases hother : other = proc
    · rw [hother, update_self] at hfound
      cases hfound
    · rw [update_of_ne hother] at hfound
      exact hkept.formed other found hfound
  · rw [hmapped]
    exact hkept.placed
  · exact profile_of_update hnextSpaces

theorem yields_uunmap_keep {va : ℕ} (hva : va % pgSize = 0) :
    Yields (uunmap proc va 1 false) memory fun _ next => next = memory := by
  unfold uunmap
  rw [if_neg fun h => h hva]
  simp only [Yields, unmapPages, ensures_bind]
  exact yields_unmapPage_keep

theorem yields_ufree {size : ℕ} (hkept : Kept allowed none memory) (hsize : size ≤ trapframe) :
    Yields (ufree proc size) memory fun _ next =>
      Kept (fun other vpn => allowed other vpn ∧ ¬(other = proc ∧ vpn * pgSize < size)) none next ∧
          profile next = profile memory := by
  have hpages : pageRoundUp size / pgSize = endPage size := Nat.mul_div_cancel _ (by decide)
  have hends := endPage_le hsize
  unfold ufree
  refine ensures_ite.mpr ⟨fun _ => ?_, fun hempty => ?_⟩
  · rw [hpages]
    have hunmap : Yields (uunmap proc (0 * pgSize) (endPage size) true)
        memory _ := yields_uunmap hkept (by omega)
    rw [Nat.zero_mul] at hunmap
    refine hunmap.imp_returned ?_
    rintro _ next ⟨hnext, hprofile⟩
    refine ⟨hnext.weaken ?_, hprofile⟩
    rintro other vpn _ ⟨hallowed, hrange⟩
    refine ⟨hallowed, ?_⟩
    rintro ⟨rfl, hvpn⟩
    exact hrange ⟨rfl, Nat.zero_le _, by rwa [Nat.zero_add, lt_endPage]⟩
  · refine ⟨hkept.weaken ?_, rfl⟩
    intro other vpn _ hallowed
    exact ⟨hallowed, fun h => hempty (Nat.zero_lt_of_lt h.2)⟩

/-- The invariant after a process is gone. -/
theorem owned_of_remove (howned : Owned memory)
    (hprofile : profile next = update (profile memory) proc none) (hkept : Kept allowed none next)
    (hallowed : ∀ other vpn, allowed other vpn →
      extent (profile memory) other vpn) : Owned next := by
  have hsame : ∀ other found, profile next other = some found →
      profile memory other = some found := by
    intro other found hfound
    rw [hprofile] at hfound
    by_cases hother : other = proc
    · rw [hother, update_self] at hfound
      cases hfound
    · rwa [update_of_ne hother] at hfound
  have hgone : profile next proc = none := by rw [hprofile, update_self]
  refine ⟨⟨hkept.balanced, hkept.formed, ?_, hkept.placed.aligned⟩, ?_, ?_⟩
  · intro other vpn frame hmapped
    obtain ⟨found, hfound, hrange⟩ :=
      hallowed other vpn (hkept.placed.within other vpn frame hmapped)
    refine ⟨found, ?_, hrange⟩
    rw [hprofile, update_of_ne]
    · exact hfound
    · rintro rfl
      have hspaces : next.spaces other = none := by
        unfold profile at hgone
        exact Option.map_eq_none_iff.mp hgone
      change (next.spaces other).bind _ = _ at hmapped
      rw [hspaces] at hmapped
      cases hmapped
  · intro other found hfound
    exact howned.fits other found (hsame other found hfound)
  · intro other found hfound
    exact howned.locked other found (hsame other found hfound)

/-- `free_proc`. -/
theorem yields_freeProc (howned : Owned memory) :
    Yields (freeProc proc) memory fun _ next => Owned next := by
  simp only [Yields, freeProc, ensures_bind]
  refine ensures_space.mpr ⟨fun _ => trivial, fun space hspace => ?_⟩
  have hsize := howned.fits proc _ (profile_eq_some hspace)
  change space.size ≤ trapframe at hsize
  refine ensures_unwrap.mpr ⟨fun _ => trivial, fun frame hframe => ?_⟩
  refine ensures_dealloc.mpr ⟨fun _ => trivial, fun _ => ?_⟩
  rw [setSpace, ensures_modify]
  obtain ⟨hfirst, hfirstProfile⟩ := kept_dropTrapframe howned.kept hspace hframe rfl
  simp only [procFreePagetable, ensures_bind]
  have hstack : Yields (uunmap proc (guardPage * pgSize) 2 true)
      { Memory.dropped memory frame with
        spaces := update memory.spaces proc (some { space with trapframe := none }) } _ :=
    yields_uunmap hfirst (by decide)
  refine hstack.imp_returned ?_
  rintro _ stackless ⟨hstackless, hstacklessProfile⟩
  refine (yields_uunmap_keep (by decide)).imp_returned ?_
  rintro _ _ rfl
  refine (yields_uunmap_keep (by decide)).imp_returned ?_
  rintro _ _ rfl
  refine (yields_ufree hstackless hsize).imp_returned ?_
  rintro _ bare ⟨hbare, hbareProfile⟩
  refine ensures_space.mpr ⟨fun _ => trivial, fun found hfound => ?_⟩
  have hprofile : profile bare = update (profile memory) proc
      (some ⟨space.size, none, upperEntry space.table⟩) := by
    rw [hbareProfile, hstacklessProfile, hfirstProfile]
  have htrapframe : found.trapframe = none := by
    have hself := profile_eq_some hfound
    rw [hprofile, update_self] at hself
    exact congrArg Profile.trapframe (Option.some.inj hself).symm
  have hnothing : ∀ vpn < userPages, ¬((extent (profile memory) proc vpn ∧
        ¬(proc = proc ∧ guardPage ≤ vpn ∧ vpn < guardPage + 2)) ∧
          ¬(proc = proc ∧ vpn * pgSize < space.size)) := by
    rintro vpn hvpn ⟨⟨hextent, hguard⟩, hlow⟩
    rcases extent_self hspace hextent with hbelow | habove
    · exact hlow ⟨rfl, hbelow⟩
    · have hend : guardPage + 2 = userPages := rfl
      exact hguard ⟨rfl, habove, by omega⟩
  have hremove := kept_remove hbare hfound htrapframe hnothing
  simp only [Yields, ensures_bind] at hremove
  refine hremove.imp_returned fun _ _ hdropped => hdropped.imp_returned fun _ _ hfreed => ?_
  obtain ⟨hlast, hlastProfile⟩ := hfreed
  rw [hprofile, update_idem] at hlastProfile
  exact owned_of_remove howned hlastProfile hlast fun other vpn hallowed => hallowed.1.1

end Dropping

end RxOs.ProcessPages
