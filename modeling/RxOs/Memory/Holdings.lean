import RxOs.Core.RefCount
import RxOs.Memory.AddressSpace

/-!
# What the pages of memory are held for

The pool of pages behind the memory of the kernel: every page that is not free
is held by the tables, the trap frame and the user pages of the processes, or by
other kernel data.  While an operation has a page in hand that no entry points
at yet, or no longer, the page is *in flight*.
-/

namespace RxOs.Holdings

open Function Exec RefCount PageTable Frames AddressSpace
open Kernel (Proc)

def userPages : ℕ := 67108862

/-- What a process holds pages for.  The trampoline and the trap frame are mapped
in its table as well, but are not its user pages. -/
inductive Piece
  | root
  | trapframe
  | mid (i : Index)
  | bottom (i j : Index)
  | page (vpn : Fin userPages)
  deriving DecidableEq, Fintype

inductive Holder
  | flight
  | kernel (slot : Fin npages)
  | piece (proc : Proc) (piece : Piece)
  deriving DecidableEq, Fintype

def target (pte : Pte) : Option ℕ := if pte.v then some pte.ppn else none

def holds (space : Space) : Piece → Option ℕ
  | .root => some space.root
  | .trapframe => space.trapframe
  | .mid i => target (space.table.top i)
  | .bottom i j => target (space.table.mid i j)
  | .page vpn => target (space.table.leaf (vpn * pgSize))

/-- Only user pages without the write bit can be shared. -/
def exclusive (space : Space) : Piece → Bool
  | .page vpn =>
    let pte := space.table.leaf (vpn * pgSize)
    pte.v && pte.w
  | _ => true

/-- What the holders hold, with the given page in flight. -/
def refs (flight : Option ℕ) (memory : Memory) : Holder → Option ℕ
  | .flight => flight
  | .kernel slot => memory.kernel slot
  | .piece proc piece => (memory.spaces proc).bind fun space => holds space piece

def sole (memory : Memory) : Holder → Bool
  | .flight => false
  | .kernel _ => true
  | .piece proc (.page vpn) => (memory.spaces proc).any fun space => exclusive space (.page vpn)
  | .piece _ _ => true

def pool (flight : Option ℕ) (memory : Memory) : Pool Holder ℕ where
  free := memory.free
  count := memory.count
  refs := refs flight memory
  sole := sole memory

def mapped (memory : Memory) (proc : Proc) (vpn : Fin userPages) : Option ℕ :=
  (memory.spaces proc).bind fun space => target (space.table.leaf (vpn * pgSize))

theorem mapped_eq_refs (flight : Option ℕ) (memory : Memory) (proc : Proc) (vpn : Fin userPages) :
    mapped memory proc vpn = refs flight memory (.piece proc (.page vpn)) := rfl

def writable (memory : Memory) (proc : Proc) (vpn : Fin userPages) : Bool :=
  (memory.spaces proc).any fun space => (space.table.leaf (vpn * pgSize)).w

/-- The entry at and above the trap frame for a page number. -/
def upperEntry (table : Table) (vpn : ℕ) : Option Pte :=
  if userPages ≤ vpn ∧ vpn < vpnCount ∧ (table.leaf (vpn * pgSize)).v = true
  then some (table.leaf (vpn * pgSize))
  else none

/-- The part of an address space that the work on its user pages leaves alone. -/
structure Profile where
  size : ℕ
  trapframe : Option ℕ
  upper : ℕ → Option Pte

def profile (memory : Memory) (proc : Proc) : Option Profile :=
  (memory.spaces proc).map fun space => ⟨space.size, space.trapframe, upperEntry space.table⟩

/-! ## Changes of a table -/

section Tables

variable {space : Space} {table : Table} {va frame : ℕ} {pte : Pte}

theorem lt_vpnCount_of_le_maxVa (hva : va ≤ maxVa) : va / pgSize < vpnCount := by
  have hmax : maxVa = 274877906944 := rfl
  have hsize : pgSize = 4096 := rfl
  have hcount : vpnCount = 134217728 := rfl
  rw [hsize]
  omega

theorem target_eq_none (hinvalid : pte.v = false) : target pte = none := by
  rw [target, hinvalid]
  rfl

theorem target_eq_some (hvalid : pte.v = true) : target pte = some pte.ppn := by
  rw [target, hvalid, if_pos rfl]

theorem target_withPerm (perm : Pte) :
    target (perm.withPerm frame) = some frame := rfl

theorem holds_hang_top (hformed : space.table.Formed) {i : Index}
    (hinvalid : (space.table.top i).v = false) :
    holds { space with table := space.table.hang (.top i) frame } =
      update (holds space) (.mid i) (some frame) := by
  funext piece
  cases piece with
  | mid other =>
    change target ((space.table.hang (.top i) frame).top other) = _
    simp only [Table.top_hang_top, update_apply, Piece.mid.injEq]
    split_ifs <;> rfl
  | bottom other j =>
    change target ((space.table.hang (.top i) frame).mid other j) = _
    rw [Table.mid_hang_top, update_of_ne (by simp)]
    split_ifs with hother
    · subst hother
      exact (target_eq_none ((Table.formed_iff.mp hformed).1.mid_invalid hinvalid j)).symm
    · rfl
  | page vpn =>
    rw [update_of_ne (by simp)]
    rfl
  | _ => rfl

/-- Hanging an empty table under an entry that is not valid leaves the valid
entries of the last level. -/
theorem target_leaf_hang_mid (hformed : table.Formed) {i j : Index}
    (hinvalid : (table.mid i j).v = false) (frame va : ℕ) :
    ((table.hang (.mid i j) frame).leaf va).v = (table.leaf va).v ∧ ((table.leaf va).v = true →
        (table.hang (.mid i j) frame).leaf va = table.leaf va) := by
  have hleaf : (table.hang (.mid i j) frame).leaf va =
      if pageNum va 2 = i ∧ pageNum va 1 = j then Pte.zero else table.leaf va :=
    Table.bottom_hang_mid ..
  rw [hleaf]
  split_ifs with hunder
  · obtain ⟨rfl, rfl⟩ := hunder
    rw [show (table.leaf va).v = false from
      (Table.formed_iff.mp hformed).1.bottom_invalid hinvalid _]
    exact ⟨rfl, nofun⟩
  · exact ⟨rfl, fun _ => rfl⟩

theorem holds_hang_mid (hformed : space.table.Formed) {i j : Index}
    (hinvalid : (space.table.mid i j).v = false) :
    holds { space with table := space.table.hang (.mid i j) frame } =
      update (holds space) (.bottom i j) (some frame) := by
  funext piece
  cases piece with
  | mid other =>
    rw [update_of_ne (by simp)]
    rfl
  | bottom other k =>
    change target ((space.table.hang (.mid i j) frame).mid other k) = _
    simp only [Table.mid_hang_mid, update_apply, Piece.bottom.injEq]
    split_ifs <;> rfl
  | page vpn =>
    rw [update_of_ne (by simp)]
    obtain ⟨hvalid, hsame⟩ := target_leaf_hang_mid hformed hinvalid frame (vpn * pgSize)
    change target _ = target _
    rw [target, target, hvalid]
    split
    · next hleaf => rw [hsame hleaf]
    · rfl
  | _ => rfl

theorem exclusive_hang_mid (hformed : space.table.Formed) {i j : Index}
    (hinvalid : (space.table.mid i j).v = false) (vpn : Fin userPages) :
    exclusive { space with table := space.table.hang (.mid i j) frame }
      (.page vpn) = exclusive space (.page vpn) := by
  obtain ⟨hvalid, hsame⟩ := target_leaf_hang_mid hformed hinvalid frame (vpn * pgSize)
  change (_ && _) = (_ && _)
  rw [hvalid]
  cases hleaf : (space.table.leaf (vpn * pgSize)).v with
  | false => rfl
  | true => rw [hsame hleaf]

theorem upperEntry_hang_mid (hformed : table.Formed) {i j : Index}
    (hinvalid : (table.mid i j).v = false) :
    upperEntry (table.hang (.mid i j) frame) = upperEntry table := by
  funext vpn
  obtain ⟨hvalid, hsame⟩ := target_leaf_hang_mid hformed hinvalid frame (vpn * pgSize)
  unfold upperEntry
  rw [hvalid]
  split
  · next hleaf => rw [hsame hleaf.2.2]
  · rfl

theorem leaf_set_page (hva : va / pgSize < vpnCount) (vpn : ℕ) (hvpn : vpn < vpnCount) :
    (table.set (slot va) pte).leaf (vpn * pgSize) =
      if vpn = va / pgSize then pte else table.leaf (vpn * pgSize) := by
  have hdiv : vpn * pgSize / pgSize = vpn := Nat.mul_div_cancel _ (by decide)
  rw [table.leaf_set pte hva (by rwa [hdiv]), hdiv]

theorem holds_set (hva : va / pgSize < userPages) :
    holds { space with table := space.table.set (slot va) pte } =
      update (holds space) (.page ⟨va / pgSize, hva⟩) (target pte) := by
  have hcount : userPages ≤ vpnCount := by decide
  funext piece
  cases piece with
  | mid | bottom => rw [update_of_ne (by simp)]; rfl
  | page vpn =>
    change target ((space.table.set (slot va) pte).leaf (vpn * pgSize)) = _
    rw [leaf_set_page (by omega) vpn (by omega)]
    by_cases hsame : vpn = ⟨va / pgSize, hva⟩
    · rw [hsame, update_self, if_pos rfl]
    · rw [update_of_ne (by simpa using hsame), if_neg fun heq => hsame (Fin.ext heq)]
      rfl
  | _ => rfl

theorem exclusive_set (hva : va / pgSize < userPages) (vpn : Fin userPages) :
    exclusive { space with table := space.table.set (slot va) pte } (.page vpn) =
        if vpn.val = va / pgSize then pte.v && pte.w
        else exclusive space (.page vpn) := by
  have hcount : userPages ≤ vpnCount := by decide
  change (Pte.v _ && Pte.w _) = _
  rw [leaf_set_page (by omega) vpn (by omega)]
  split
  · rfl
  · rfl

theorem upperEntry_set (hva : va / pgSize < userPages) :
    upperEntry (table.set (slot va) pte) = upperEntry table := by
  have hcount : userPages ≤ vpnCount := by decide
  funext vpn
  unfold upperEntry
  by_cases hvpn : userPages ≤ vpn ∧ vpn < vpnCount
  · rw [leaf_set_page (by omega) vpn hvpn.2, if_neg (show ¬vpn = va / pgSize by omega)]
  · rw [if_neg fun h => hvpn ⟨h.1, h.2.1⟩, if_neg fun h => hvpn ⟨h.1, h.2.1⟩]

theorem holds_set_upper (hva : userPages ≤ va / pgSize) (hlimit : va / pgSize < vpnCount) :
    holds { space with table := space.table.set (slot va) pte } = holds space := by
  have hcount : userPages ≤ vpnCount := by decide
  funext piece
  cases piece with
  | page vpn =>
    change target ((space.table.set (slot va) pte).leaf (vpn * pgSize)) = _
    rw [leaf_set_page hlimit vpn (by omega), if_neg (by omega)]
    rfl
  | _ => rfl

theorem exclusive_set_upper (hva : userPages ≤ va / pgSize)
    (hlimit : va / pgSize < vpnCount) (vpn : Fin userPages) :
    exclusive { space with table := space.table.set (slot va) pte }
      (.page vpn) = exclusive space (.page vpn) := by
  have hcount : userPages ≤ vpnCount := by decide
  change (Pte.v _ && Pte.w _) = _
  rw [leaf_set_page hlimit vpn (by omega), if_neg (by omega)]
  rfl

theorem upperEntry_set_upper (hva : userPages ≤ va / pgSize)
    (hlimit : va / pgSize < vpnCount) (hvalid : pte.v = true) :
    upperEntry (table.set (slot va) pte) = update (upperEntry table) (va / pgSize) (some pte) := by
  funext vpn
  unfold upperEntry
  by_cases hvpn : userPages ≤ vpn ∧ vpn < vpnCount
  · rw [leaf_set_page hlimit vpn hvpn.2]
    by_cases hsame : vpn = va / pgSize
    · rw [if_pos hsame, hsame, update_self, if_pos ⟨hva, hlimit, hvalid⟩]
    · rw [if_neg hsame, update_of_ne hsame]
  · rw [if_neg fun h => hvpn ⟨h.1, h.2.1⟩, update_of_ne (by omega),
      if_neg fun h => hvpn ⟨h.1, h.2.1⟩]

end Tables

/-! ## Changes of an address space -/

section Spaces

variable {memory next : Memory} {proc : Proc} {space changed : Space}
variable {flight : Option ℕ}

theorem refs_of_update (hspace : memory.spaces proc = some space)
    (hkernel : next.kernel = memory.kernel)
    (hspaces : next.spaces = update memory.spaces proc (some changed))
    {piece : Piece} {frame : Option ℕ} (hholds : holds changed = update (holds space) piece frame) :
    refs flight next = update (refs flight memory) (.piece proc piece) frame := by
  funext holder
  cases holder with
  | flight => rw [update_of_ne (by simp)]; rfl
  | kernel slot =>
    rw [update_of_ne (by simp)]
    exact congrFun hkernel slot
  | piece other each =>
    change (next.spaces other).bind _ = _
    rw [hspaces]
    by_cases hother : other = proc
    · subst hother
      rw [update_self, Option.bind_some, hholds]
      by_cases hpiece : each = piece
      · rw [hpiece, update_self, update_self]
      · rw [update_of_ne hpiece, update_of_ne (by simpa using hpiece)]
        change _ = (memory.spaces other).bind _
        rw [hspace]
        rfl
    · rw [update_of_ne hother, update_of_ne fun heq => hother (by injection heq)]
      rfl

theorem refs_of_same (hspace : memory.spaces proc = some space)
    (hkernel : next.kernel = memory.kernel)
    (hspaces : next.spaces = update memory.spaces proc (some changed))
    (hholds : holds changed = holds space) : refs flight next = refs flight memory := by
  have hupdate : holds changed = update (holds space) .root (some space.root) :=
    by rw [hholds]; exact (update_eq_self _ _).symm
  rw [refs_of_update hspace hkernel hspaces hupdate]
  have hroot : refs flight memory (.piece proc .root) = some space.root := by
    change (memory.spaces proc).bind _ = _
    rw [hspace]
    rfl
  rw [← hroot, update_eq_self]

theorem sole_of_update (hspace : memory.spaces proc = some space)
    (hspaces : next.spaces = update memory.spaces proc (some changed)) {vpn : ℕ} {mark : Bool}
    (hexclusive : ∀ each : Fin userPages, exclusive changed (.page each) =
      if each.val = vpn then mark else exclusive space (.page each))
    (other : Proc) (each : Fin userPages) :
    sole next (.piece other (.page each)) =
      if other = proc ∧ each.val = vpn then mark
      else sole memory (.piece other (.page each)) := by
  change (next.spaces other).any _ = if _ then _ else (memory.spaces other).any _
  rw [hspaces]
  by_cases hother : other = proc
  · subst hother
    rw [update_self, hspace, Option.any_some, Option.any_some, hexclusive]
    by_cases heach : each.val = vpn
    · rw [if_pos heach, if_pos ⟨rfl, heach⟩]
    · rw [if_neg heach, if_neg fun h => heach h.2]
  · rw [update_of_ne hother, if_neg fun h => hother h.1]

theorem sole_of_same (hspace : memory.spaces proc = some space)
    (hspaces : next.spaces = update memory.spaces proc (some changed))
    (hexclusive : ∀ each : Fin userPages,
      exclusive changed (.page each) = exclusive space (.page each)) : sole next = sole memory := by
  have hupdate : ∀ each : Fin userPages, exclusive changed (.page each) =
      if each.val = userPages then false else exclusive space (.page each) := by
    intro each
    rw [hexclusive, if_neg each.isLt.ne]
  funext holder
  match holder with
  | .flight | .kernel _ | .piece _ .root | .piece _ .trapframe
  | .piece _ (.mid _) | .piece _ (.bottom _ _) => rfl
  | .piece other (.page each) =>
    rw [sole_of_update hspace hspaces hupdate, if_neg fun h => each.isLt.ne h.2]

theorem profile_eq_some (hspace : memory.spaces proc = some space) :
    profile memory proc = some ⟨space.size, space.trapframe, upperEntry space.table⟩ := by
  rw [profile, hspace]
  rfl

theorem profile_of_update {after : Option Space}
    (hspaces : next.spaces = update memory.spaces proc after) :
    profile next = update (profile memory) proc
      (after.map fun space => ⟨space.size, space.trapframe, upperEntry space.table⟩) := by
  funext other
  rw [profile, hspaces]
  exact apply_update (fun _ => Option.map _) memory.spaces proc after other

theorem profile_of_same (hspace : memory.spaces proc = some space)
    (hspaces : next.spaces = update memory.spaces proc (some changed))
    (hsize : changed.size = space.size) (htrapframe : changed.trapframe = space.trapframe)
    (hupper : upperEntry changed.table = upperEntry space.table) :
    profile next = profile memory := by
  rw [profile_of_update hspaces, Option.map_some, hsize, htrapframe, hupper,
    ← profile_eq_some hspace, update_eq_self]

end Spaces

/-! ## Well-kept memory -/

/-- The user pages are mapped where they may be, and a page that is mapped more
than once is mapped at the same address everywhere. -/
structure Placed (allowed : Proc → ℕ → Prop)
    (mapping : Proc → Fin userPages → Option ℕ) : Prop where
  within : ∀ proc vpn frame, mapping proc vpn = some frame → allowed proc vpn
  aligned : ∀ proc vpn other each frame, mapping proc vpn = some frame →
    mapping other each = some frame → vpn = each

/-- The counts are right, the tables are formed, and the user pages are in
place. -/
structure Kept (allowed : Proc → ℕ → Prop) (flight : Option ℕ)
    (memory : Memory) : Prop where
  balanced : Balanced (pool flight memory)
  formed : ∀ proc space, memory.spaces proc = some space → space.table.Formed
  placed : Placed allowed (mapped memory)

section Kept

variable {allowed allowed' : Proc → ℕ → Prop} {flight : Option ℕ}
variable {memory next : Memory} {proc : Proc} {space changed : Space}

theorem Kept.weaken (hkept : Kept allowed flight memory)
    (hallowed : ∀ proc vpn, vpn < userPages → allowed proc vpn → allowed' proc vpn) :
    Kept allowed' flight memory where
  balanced := hkept.balanced
  formed := hkept.formed
  placed := ⟨fun proc vpn frame hmapped =>
    hallowed proc vpn vpn.isLt (hkept.placed.within proc vpn frame hmapped), hkept.placed.aligned⟩

theorem formed_of_update (hformed : ∀ proc space, memory.spaces proc = some space →
      space.table.Formed) (hspaces : next.spaces = update memory.spaces proc (some changed))
    (hchanged : changed.table.Formed) :
    ∀ proc space, next.spaces proc = some space → space.table.Formed := by
  intro other found hfound
  rw [hspaces] at hfound
  by_cases hother : other = proc
  · rw [hother, update_self] at hfound
    rwa [← Option.some.inj hfound]
  · rw [update_of_ne hother] at hfound
    exact hformed other found hfound

/-- A page becomes a table of a process. -/
theorem Kept.hang (hkept : Kept allowed flight memory)
    (hspace : memory.spaces proc = some space) {frame : ℕ} {rest : List ℕ}
    (hfree : memory.free = frame :: rest) {piece : Piece}
    (hpiece : ∀ vpn, piece ≠ .page vpn) (hnone : holds space piece = none)
    (hholds : holds changed = update (holds space) piece (some frame))
    (hexclusive : ∀ each : Fin userPages,
      exclusive changed (.page each) = exclusive space (.page each))
    (hformed : changed.table.Formed)
    (hnext : next = { Memory.taken memory frame rest with
      spaces := update memory.spaces proc (some changed) }) :
    Kept allowed flight next ∧ mapped next = mapped memory := by
  have hkernel : next.kernel = memory.kernel := by rw [hnext]; rfl
  have hspaces : next.spaces = update memory.spaces proc (some changed) := by rw [hnext]
  have hrefs : ∀ flight, refs flight next =
      update (refs flight memory) (.piece proc piece) (some frame) :=
    fun _ => refs_of_update hspace hkernel hspaces hholds
  have hempty : (pool flight memory).refs (.piece proc piece) = none := by
    change (memory.spaces proc).bind _ = none
    rw [hspace]
    exact hnone
  have hmapped : mapped next = mapped memory := by
    funext other vpn
    rw [mapped_eq_refs none, mapped_eq_refs none, hrefs, update_of_ne]
    intro heq
    injection heq with _ heq
    exact hpiece vpn heq.symm
  refine ⟨⟨?_, formed_of_update hkept.formed hspaces hformed, ?_⟩, hmapped⟩
  · refine hkept.balanced.take hempty ?_ ?_ (hrefs flight) ?_
    · rw [hnext]
      exact hfree
    · rw [hnext]
      rfl
    · intro other _
      exact congrFun (sole_of_same hspace hspaces hexclusive) other
  · rw [hmapped]
    exact hkept.placed

theorem Kept.withBytes (hkept : Kept allowed flight memory) (bytes : ℕ → ℕ → UInt8) :
    Kept allowed flight { memory with bytes := bytes } :=
  ⟨hkept.balanced, hkept.formed, hkept.placed⟩

theorem profile_withBytes (memory : Memory) (bytes : ℕ → ℕ → UInt8) :
    profile { memory with bytes := bytes } = profile memory := rfl

theorem Kept.lift (hkept : Kept allowed none memory) {frame : ℕ}
    {rest : List ℕ} (hfree : memory.free = frame :: rest) :
    Kept allowed (some frame) (Memory.taken memory frame rest) := by
  refine ⟨?_, hkept.formed, hkept.placed⟩
  have hempty : (pool none memory).refs .flight = none := rfl
  refine hkept.balanced.take hempty hfree rfl ?_ fun _ _ => rfl
  funext holder
  cases holder with
  | flight => rw [update_self]; rfl
  | _ => rw [update_of_ne (by simp)]; rfl

theorem dropped_free (memory : Memory) (frame : ℕ) :
    (Memory.dropped memory frame).free =
      if memory.count frame = 1 then frame :: memory.free
      else memory.free := by
  change (if memory.count frame - 1 = 0 then _ else _) = _
  simp only [sub_eq_zero]

theorem Kept.release {frame : ℕ} (hkept : Kept allowed (some frame) memory) :
    Kept allowed none (Memory.dropped memory frame) := by
  refine ⟨?_, hkept.formed, hkept.placed⟩
  have hheld : (pool (some frame) memory).refs .flight = some frame := rfl
  refine hkept.balanced.drop hheld (dropped_free memory frame) rfl ?_ fun _ _ => rfl
  funext holder
  cases holder with
  | flight => rw [update_self]; rfl
  | _ => rw [update_of_ne (by simp)]; rfl

/-- A page that is shared is taken in hand once more. -/
theorem Kept.share (hkept : Kept allowed none memory) {vpn : Fin userPages}
    {frame : ℕ} (hmapped : mapped memory proc vpn = some frame)
    (hopen : sole memory (.piece proc (.page vpn)) = false) :
    Kept allowed (some frame) { memory with
      count := update memory.count frame (memory.count frame + 1) } := by
  refine ⟨?_, hkept.formed, hkept.placed⟩
  have hempty : (pool none memory).refs .flight = none := rfl
  have hheld : (pool none memory).refs (.piece proc (.page vpn)) = some frame := hmapped
  refine hkept.balanced.share hempty hheld hopen rfl rfl ?_ rfl fun _ _ => rfl
  funext holder
  cases holder with
  | flight => rw [update_self]; rfl
  | _ => rw [update_of_ne (by simp)]; rfl

section SetEntry

variable {va frame : ℕ} {pte : Pte}

theorem refs_set (hva : va / pgSize < userPages) (hspace : memory.spaces proc = some space)
    (hkernel : next.kernel = memory.kernel) (hspaces : next.spaces = update memory.spaces proc
      (some { space with table := space.table.set (slot va) pte })) (flight : Option ℕ) :
    refs flight next = update (refs flight memory)
      (.piece proc (.page ⟨va / pgSize, hva⟩)) (target pte) :=
  refs_of_update hspace hkernel hspaces (holds_set hva)

theorem mapped_set (hva : va / pgSize < userPages) (hspace : memory.spaces proc = some space)
    (hkernel : next.kernel = memory.kernel) (hspaces : next.spaces = update memory.spaces proc
      (some { space with table := space.table.set (slot va) pte }))
    (other : Proc) (vpn : Fin userPages) :
    mapped next other vpn =
      if other = proc ∧ vpn.val = va / pgSize then target pte
      else mapped memory other vpn := by
  rw [mapped_eq_refs none, mapped_eq_refs none, refs_set hva hspace hkernel hspaces]
  by_cases hsame : other = proc ∧ vpn.val = va / pgSize
  · rw [if_pos hsame, hsame.1,
      show vpn = ⟨va / pgSize, hva⟩ from Fin.ext hsame.2, update_self]
  · rw [if_neg hsame, update_of_ne]
    intro heq
    injection heq with hproc hpiece
    injection hpiece with hvpn
    exact hsame ⟨hproc, congrArg Fin.val hvpn⟩

theorem profile_set (hva : va / pgSize < userPages) (hspace : memory.spaces proc = some space)
    (hspaces : next.spaces = update memory.spaces proc
      (some { space with table := space.table.set (slot va) pte })) :
    profile next = profile memory :=
  profile_of_same hspace hspaces rfl rfl (upperEntry_set hva)

theorem sole_set (hva : va / pgSize < userPages) (hspace : memory.spaces proc = some space)
    (hspaces : next.spaces = update memory.spaces proc
      (some { space with table := space.table.set (slot va) pte }))
    {holder : Holder} (hholder : holder ≠ .piece proc (.page ⟨va / pgSize, hva⟩)) :
    sole next holder = sole memory holder := by
  match holder with
  | .flight | .kernel _ | .piece _ .root | .piece _ .trapframe
  | .piece _ (.mid _) | .piece _ (.bottom _ _) => rfl
  | .piece other (.page each) =>
    rw [sole_of_update hspace hspaces (exclusive_set hva), if_neg]
    rintro ⟨rfl, heach⟩
    exact hholder (congrArg _ (congrArg _ (Fin.ext heach)))

theorem sole_set_self (hva : va / pgSize < userPages) (hspace : memory.spaces proc = some space)
    (hspaces : next.spaces = update memory.spaces proc
      (some { space with table := space.table.set (slot va) pte })) :
    sole next (.piece proc (.page ⟨va / pgSize, hva⟩)) = (pte.v && pte.w) := by
  rw [sole_of_update hspace hspaces (exclusive_set hva), if_pos ⟨rfl, rfl⟩]

theorem leaf_eq_page (table : Table) (hva : va / pgSize < vpnCount) :
    table.leaf (va / pgSize * pgSize) = table.leaf va := by
  have hdiv : va / pgSize * pgSize / pgSize = va / pgSize := Nat.mul_div_cancel _ (by decide)
  exact table.leaf_congr (by rwa [hdiv]) hva hdiv

theorem mapped_eq_target (hva : va / pgSize < userPages)
    (hspace : memory.spaces proc = some space) :
    mapped memory proc ⟨va / pgSize, hva⟩ = target (space.table.leaf va) := by
  have hcount : userPages ≤ vpnCount := by decide
  change (memory.spaces proc).bind _ = _
  rw [hspace]
  change target (space.table.leaf (va / pgSize * pgSize)) = _
  rw [leaf_eq_page _ (by omega)]

/-- Writing an entry changes the table of the process only. -/
theorem rest_of_set (hnext : next = { memory with
      spaces := update memory.spaces proc
        (some { space with table := space.table.set (slot va) pte }) }) :
    next.free = memory.free ∧ next.count = memory.count ∧ next.kernel = memory.kernel ∧
      next.spaces = update memory.spaces proc
        (some { space with table := space.table.set (slot va) pte }) := by
  rw [hnext]
  exact ⟨rfl, rfl, rfl, rfl⟩

/-- The page in hand is mapped, and the page that was mapped is in hand. -/
theorem Kept.exchange (hkept : Kept allowed (some frame) memory) (hva : va / pgSize < userPages)
    (hspace : memory.spaces proc = some space)
    (hunder : (space.table.mid (pageNum va 2) (pageNum va 1)).v = true)
    (htarget : target pte = some frame) (hone : pte.w = true → memory.count frame = 1)
    (haligned : ∀ other vpn, mapped memory other vpn = some frame → vpn.val = va / pgSize)
    (hnext : next = { memory with
      spaces := update memory.spaces proc
        (some { space with table := space.table.set (slot va) pte }) }) :
    Kept (fun other vpn => allowed other vpn ∨ other = proc ∧ vpn = va / pgSize)
        (target (space.table.leaf va)) next := by
  obtain ⟨hfree, hcount, hkernel, hspaces⟩ := rest_of_set hnext
  have hold := mapped_eq_target hva hspace
  have hmapped := mapped_set hva hspace hkernel hspaces
  refine ⟨?_, ?_, ?_, ?_⟩
  · have hrefs : (pool (target (space.table.leaf va)) next).refs = (pool (some frame) memory).refs ∘
          Equiv.swap .flight (.piece proc (.page ⟨va / pgSize, hva⟩)) := by
      change refs _ next = refs _ memory ∘ _
      rw [refs_set hva hspace hkernel hspaces, htarget, ← hold]
      funext holder
      rw [comp_apply]
      by_cases hflight : holder = .flight
      · rw [hflight, Equiv.swap_apply_left, update_of_ne (by simp)]
        rfl
      by_cases hpage : holder = .piece proc (.page ⟨va / pgSize, hva⟩)
      · rw [hpage, Equiv.swap_apply_right, update_self]
        rfl
      · rw [Equiv.swap_apply_of_ne_of_ne hflight hpage, update_of_ne hpage]
        cases holder with
        | flight => exact absurd rfl hflight
        | _ => rfl
    refine hkept.balanced.exchange hfree hcount hrefs ?_ ?_
    · rintro each held (rfl | rfl) hheld hmark
      · cases hmark
      · change sole next (.piece proc (.page ⟨va / pgSize, hva⟩)) = true at hmark
        rw [sole_set_self hva hspace hspaces, Bool.and_eq_true] at hmark
        change mapped next proc ⟨va / pgSize, hva⟩ = some held at hheld
        rw [hmapped, if_pos ⟨rfl, rfl⟩, htarget] at hheld
        rw [← Option.some.inj hheld]
        exact hone hmark.2
    · intro each _ hpage
      exact sole_set hva hspace hspaces hpage
  · refine formed_of_update hkept.formed hspaces ?_
    exact (hkept.formed proc space hspace).set fun _ => hunder
  · intro other vpn held hheld
    rw [hmapped] at hheld
    split at hheld
    · next hsame => exact Or.inr hsame
    · exact Or.inl (hkept.placed.within other vpn held hheld)
  · intro other vpn third each held hleft hright
    rw [hmapped] at hleft hright
    split at hleft
    · next hsame =>
        rw [htarget] at hleft
        cases hleft
        split at hright
        · next hthird => exact Fin.ext (hsame.2.trans hthird.2.symm)
        · exact Fin.ext (hsame.2.trans (haligned third each hright).symm)
    · split at hright
      · next hthird =>
          rw [htarget] at hright
          cases hright
          exact Fin.ext ((haligned other vpn hleft).trans hthird.2.symm)
      · exact hkept.placed.aligned other vpn third each held hleft hright

/-- An entry changes its flags. -/
theorem Kept.mark (hkept : Kept allowed flight memory) (hva : va / pgSize < userPages)
    (hspace : memory.spaces proc = some space) (hvalid : (space.table.leaf va).v = true)
    (htarget : target pte = target (space.table.leaf va))
    (hone : pte.w = true → memory.count (space.table.leaf va).ppn = 1)
    (hnext : next = { memory with
      spaces := update memory.spaces proc
        (some { space with table := space.table.set (slot va) pte }) }) :
    Kept allowed flight next := by
  obtain ⟨hfree, hcount, hkernel, hspaces⟩ := rest_of_set hnext
  have hold := mapped_eq_target hva hspace
  have hrefs : ∀ flight, refs flight next = refs flight memory := by
    intro flight
    rw [refs_set hva hspace hkernel hspaces, htarget, ← hold]
    exact update_eq_self (.piece proc (.page ⟨va / pgSize, hva⟩)) (refs flight memory)
  refine ⟨?_, ?_, ?_⟩
  · refine hkept.balanced.mark hfree hcount (hrefs flight) fun holder held hheld hmark => ?_
    by_cases hpage : holder = .piece proc (.page ⟨va / pgSize, hva⟩)
    · rw [hpage] at hheld hmark
      change sole next (.piece proc (.page ⟨va / pgSize, hva⟩)) = true at hmark
      rw [sole_set_self hva hspace hspaces, Bool.and_eq_true] at hmark
      change mapped memory proc _ = _ at hheld
      rw [hold, target, hvalid, if_pos rfl] at hheld
      rw [← Option.some.inj hheld]
      exact Or.inr (hone hmark.2)
    · change sole next holder = true at hmark
      rw [sole_set hva hspace hspaces hpage] at hmark
      exact Or.inl hmark
  · refine formed_of_update hkept.formed hspaces ?_
    have hformed := hkept.formed proc space hspace
    exact hformed.set fun _ => hformed.bottom_under _ _ _ hvalid
  · have hmapped : mapped next = mapped memory := by
      funext other vpn
      rw [mapped_eq_refs none, mapped_eq_refs none, hrefs]
    rw [hmapped]
    exact hkept.placed

/-- A user page is given back and its entry cleared. -/
theorem Kept.clear (hkept : Kept allowed none memory) (hva : va / pgSize < userPages)
    (hspace : memory.spaces proc = some space) (hvalid : (space.table.leaf va).v = true)
    (hnext : next = { Memory.dropped memory (space.table.leaf va).ppn with
      spaces := update memory.spaces proc
        (some { space with table := space.table.set (slot va) Pte.zero }) }) :
    Kept (fun other vpn => allowed other vpn ∧ ¬(other = proc ∧ vpn = va / pgSize)) none next := by
  have hkernel : next.kernel = memory.kernel := by rw [hnext]; rfl
  have hspaces : next.spaces = update memory.spaces proc
      (some { space with table := space.table.set (slot va) Pte.zero }) := by rw [hnext]
  have hheld : (pool none memory).refs (.piece proc (.page ⟨va / pgSize, hva⟩)) =
        some (space.table.leaf va).ppn := by
    change mapped memory proc _ = _
    rw [mapped_eq_target hva hspace, target, hvalid, if_pos rfl]
  have hmapped := mapped_set hva hspace hkernel hspaces
  refine ⟨?_, ?_, ?_, ?_⟩
  · refine hkept.balanced.drop hheld ?_ ?_ (refs_set hva hspace hkernel hspaces none) ?_
    · rw [hnext]
      exact dropped_free memory _
    · rw [hnext]
      rfl
    · intro other hother
      exact sole_set hva hspace hspaces hother
  · exact formed_of_update hkept.formed hspaces ((hkept.formed proc space hspace).set nofun)
  · intro other vpn held hmap
    rw [hmapped] at hmap
    split at hmap
    · cases hmap
    · next hother => exact ⟨hkept.placed.within other vpn held hmap, hother⟩
  · intro other vpn third each held hleft hright
    rw [hmapped] at hleft hright
    split at hleft
    · cases hleft
    · split at hright
      · cases hright
      · exact hkept.placed.aligned other vpn third each held hleft hright

/-- An entry at or above the trap frame is written. -/
theorem Kept.upper (hkept : Kept allowed flight memory)
    (hva : userPages ≤ va / pgSize) (hlimit : va / pgSize < vpnCount)
    (hspace : memory.spaces proc = some space)
    (hunder : (space.table.mid (pageNum va 2) (pageNum va 1)).v = true)
    (hnext : next = { memory with
      spaces := update memory.spaces proc
        (some { space with table := space.table.set (slot va) pte }) }) :
    Kept allowed flight next := by
  obtain ⟨hfree, hcount, hkernel, hspaces⟩ := rest_of_set hnext
  have hrefs : ∀ flight, refs flight next = refs flight memory :=
    fun flight => refs_of_same hspace hkernel hspaces (holds_set_upper hva hlimit)
  have hsole : sole next = sole memory :=
    sole_of_same hspace hspaces (exclusive_set_upper hva hlimit)
  refine ⟨?_, ?_, ?_⟩
  · refine hkept.balanced.mark hfree hcount (hrefs flight) fun holder held _ hmark => ?_
    change sole next holder = true at hmark
    rw [hsole] at hmark
    exact Or.inl hmark
  · exact formed_of_update hkept.formed hspaces
      ((hkept.formed proc space hspace).set fun _ => hunder)
  · have hmapped : mapped next = mapped memory := by
      funext other vpn
      rw [mapped_eq_refs none, mapped_eq_refs none, hrefs]
    rw [hmapped]
    exact hkept.placed

end SetEntry

end Kept

end RxOs.Holdings
