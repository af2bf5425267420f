import RxOs.Memory.CopyOnWrite

/-!
# Kernel writes to user memory

`copy_out` stores through the page table of a process without looking at the
write bit.  What another process can see of that is decided page by page: it
sees the bytes that land on pages which it maps as well.
-/

namespace RxOs.KernelWrites

open Function Exec Transition PageTable Frames UserCopy AddressSpace Holdings
open Sharing ProcessPages CopyOnWrite
open Kernel (Proc)

/-! ## Stored bytes -/

section Stores

variable {table writer reader : Table} {bytes : ℕ → ℕ → UInt8}
variable {va frame position : ℕ} {src : List UInt8}

/-- No page is mapped at two addresses of the table. -/
def Unaliased (table : Table) : Prop :=
  ∀ left right frame, userFrame table left = some frame →
    userFrame table right = some frame → left / pgSize = right / pgSize

/-- Every byte of the range is stored where its address leads. -/
theorem Unaliased.storeBytes_at (hunaliased : Unaliased table) {offset : ℕ}
    (hoffset : offset < src.length) (hframe : userFrame table (va + offset) = some frame) :
    storeBytes table bytes va src frame ((va + offset) % pgSize) = src[offset] := by
  refine UserCopy.storeBytes_at hoffset hframe fun other _ htarget heq => ?_
  have hpage := hunaliased _ _ _ htarget hframe
  have hdiv := Nat.div_add_mod (va + other) pgSize
  have hdiv' := Nat.div_add_mod (va + offset) pgSize
  rw [hpage, heq] at hdiv
  omega

/-- Bytes that are stored where they already are change nothing. -/
theorem storeBytes_same (hsame : ∀ offset (hoffset : offset < src.length),
      userFrame table (va + offset) = some frame →
        bytes frame ((va + offset) % pgSize) = src[offset]) :
    storeBytes table bytes va src frame = bytes frame := by
  induction src generalizing va bytes with
  | nil => rfl
  | cons byte src ih =>
    have hfirst : storeByte table bytes va byte frame = bytes frame := by
      funext position
      by_cases hposition : userFrame table va = some frame ∧ va % pgSize = position
      · obtain ⟨htarget, rfl⟩ := hposition
        have hbyte := hsame 0 (Nat.zero_lt_succ _) htarget
        rw [Nat.add_zero] at hbyte
        unfold storeByte
        rw [htarget]
        simp only [update_self]
        exact hbyte.symm
      · exact storeByte_of_ne fun htarget heq => hposition ⟨htarget, heq⟩
    rw [storeBytes, ih, hfirst]
    intro offset hoffset htarget
    rw [hfirst]
    have hrest := hsame (offset + 1) (Nat.succ_lt_succ hoffset)
    rw [show va + (offset + 1) = va + 1 + offset by omega] at hrest
    exact hrest htarget

/-- Every byte that goes to a page which the reader maps is there already. -/
def Harmless (writer reader : Table) (bytes : ℕ → ℕ → UInt8) (dst : ℕ) (src : List UInt8) : Prop :=
  ∀ offset (hoffset : offset < src.length) frame addr,
    userFrame writer (dst + offset) = some frame → userFrame reader addr = some frame →
        bytes frame ((dst + offset) % pgSize) = src[offset]

theorem userFrame_page (table : Table) (addr position : ℕ) (hposition : position < pgSize) :
    userFrame table (pageRoundDown addr + position) = userFrame table addr := by
  unfold userFrame
  rw [pageRoundDown_add (pageRoundDown_mod addr) hposition]

/-- What the reader sees of a store through the table of the writer. -/
theorem userByte_storeBytes_iff (hunaliased : Unaliased writer)
    (reader : Table) (memory : Memory) (dst : ℕ) (src : List UInt8) :
    (∀ addr, userByte reader { memory with
        bytes := storeBytes writer memory.bytes dst src } addr =
      userByte reader memory addr) ↔
    Harmless writer reader memory.bytes dst src := by
  constructor
  · intro hunseen offset hoffset frame addr hwriter hreader
    have hposition : (dst + offset) % pgSize < pgSize := Nat.mod_lt _ (by decide)
    have hbyte := hunseen (pageRoundDown addr + (dst + offset) % pgSize)
    have hmod : (pageRoundDown addr + (dst + offset) % pgSize) % pgSize =
        (dst + offset) % pgSize := by
      rw [Nat.add_mod, pageRoundDown_mod, Nat.zero_add, Nat.mod_mod, Nat.mod_mod]
    unfold userByte at hbyte
    rw [userFrame_page _ _ _ hposition, hreader, hmod] at hbyte
    have hstored : storeBytes writer memory.bytes dst src frame
        ((dst + offset) % pgSize) = memory.bytes frame
          ((dst + offset) % pgSize) := Option.some.inj hbyte
    rw [← hstored]
    exact hunaliased.storeBytes_at hoffset hwriter
  · intro hharmless addr
    unfold userByte
    cases hreader : userFrame reader addr with
    | none => rfl
    | some frame =>
      have hsame : storeBytes writer memory.bytes dst src frame = memory.bytes frame :=
        storeBytes_same fun offset hoffset hwriter =>
          hharmless offset hoffset frame addr hwriter hreader
      rw [Option.map_some, Option.map_some]
      exact congrArg some (congrFun hsame _)

end Stores

/-! ## Sequences of calls -/

section Calls

variable {first last memory : Memory} {proc writer reader : Proc}

theorem unaliased_of_owned (howned : Owned memory) {space : Space}
    (hspace : memory.spaces proc = some space) : Unaliased space.table := by
  intro left right frame hleft hright
  obtain ⟨hleftPage, hleftMapped, -⟩ := mapped_of_userFrame howned hspace hleft
  obtain ⟨hrightPage, hrightMapped, -⟩ := mapped_of_userFrame howned hspace hright
  exact congrArg Fin.val (howned.kept.placed.aligned _ _ _ _ frame hleftMapped hrightMapped)

/-- `copy_out` on behalf of the writer, with address and contents. -/
def write (writer : Proc) (memory : Memory) (call : ℕ × List UInt8) : Option Memory :=
  (memory.spaces writer).bind fun space => outcome (copyOut space.table call.1 call.2) memory

/-- The reader sees the same bytes at all addresses in both states. -/
def Unseen (reader : Proc) (first memory : Memory) : Prop :=
  ∀ space, first.spaces reader = some space → ∀ addr,
    userByte space.table memory addr = userByte space.table first addr

/-- The call stores on pages of the reader only what is there. -/
def HarmlessCall (writer reader : Proc) (memory : Memory) (call : ℕ × List UInt8) : Prop :=
  ∀ own other, memory.spaces writer = some own → memory.spaces reader = some other →
      Harmless own.table other.table memory.bytes call.1 call.2

theorem write_eq_some (hformed : ∀ proc space, memory.spaces proc = some space → space.table.Formed)
    {call : ℕ × List UInt8} {next : Memory} (hwrite : write writer memory call = some next) :
    ∃ space, memory.spaces writer = some space ∧ next = { memory with
      bytes := storeBytes space.table memory.bytes call.1 call.2 } := by
  obtain ⟨space, hspace, hcall⟩ := Option.bind_eq_some_iff.mp hwrite
  refine ⟨space, hspace, ?_⟩
  have hspec := ensures_copyOut call.1 call.2
    (paged_of_formed (hformed writer space hspace) _ _) memory
  unfold outcome at hcall
  split at hcall
  · next result middle hrun =>
      rw [← Option.some.inj hcall]
      exact (hspec.eq_ok hrun).2.2
  · cases hcall

/-- The reader sees nothing of a sequence of calls exactly when each of them
stores on the reader's pages only what is there before the call. -/
theorem run_unseen_iff {record : List (Memory × (ℕ × List UInt8))}
    (howned : Owned first) (hrun : Run (write writer) first record last) :
    (Unseen reader first last ∧ ∀ entry ∈ record, Unseen reader first entry.1) ↔
        ∀ entry ∈ record, HarmlessCall writer reader entry.1 entry.2 := by
  have hkeep : ∀ memory call next, memory.spaces = first.spaces →
      HarmlessCall writer reader memory call → write writer memory call = some next →
          next.spaces = first.spaces := by
    intro memory call next hspaces _ hwrite
    obtain ⟨space, -, rfl⟩ := write_eq_some (by rw [hspaces]; exact howned.kept.formed) hwrite
    exact hspaces
  refine hrun.holds_iff hkeep ?_ rfl fun _ _ _ => rfl
  intro memory call next hspaces hunseen hwrite
  obtain ⟨own, hown, rfl⟩ := write_eq_some (by rw [hspaces]; exact howned.kept.formed) hwrite
  rw [hspaces] at hown
  have hstored := fun other : Space => userByte_storeBytes_iff
    (unaliased_of_owned howned hown) other.table memory call.1 call.2
  constructor
  · intro hnext left right hleft hright
    rw [hspaces] at hleft hright
    obtain rfl := Option.some.inj (hown.symm.trans hleft)
    refine (hstored right).mp ?_
    intro addr
    exact (hnext right hright addr).trans (hunseen right hright addr).symm
  · intro hharmless other hother addr
    rw [← hunseen other hother addr]
    exact (hstored other).mpr (hharmless own other (by rwa [hspaces]) (by rwa [hspaces])) addr

/-- Nobody else maps the pages of a range with the write bit. -/
theorem harmlessCall_of_writable (howned : Owned memory)
    (hne : reader ≠ writer) {call : ℕ × List UInt8}
    (hwritable : ∀ own, memory.spaces writer = some own → ∀ offset < call.2.length,
        (own.table.leaf (pageRoundDown (call.1 + offset))).w = true) :
    HarmlessCall writer reader memory call := by
  intro own other hown hother offset hoffset frame addr hwriter hreader
  obtain ⟨hpage, hmapped, hmark⟩ := mapped_of_userFrame howned hown hwriter
  obtain ⟨heach, hread, -⟩ := mapped_of_userFrame howned hother hreader
  have hmark := hmark.trans (hwritable own hown offset hoffset)
  exact absurd ((isolated_of_owned howned).exclusive writer _ frame hmapped
    hmark reader _ hread).1 hne

/-- The stack of a process that has forked is its own. -/
theorem run_unseen_fork : ∃ forked last, Owned forked ∧
    Run (write 0) forked [(forked, (ustackBase, [9]))] last ∧ Unseen 1 forked last := by
  have hstack : (([.userInit 0 [1, 2, 3], .fork 0 1] : List Action).foldlM
      step (boot 64)).bind (fun forked => (write 0 forked (ustackBase, [9])).map fun _ =>
          (forked.spaces 0).all fun own => (own.table.leaf (pageRoundDown (ustackBase + 0))).w) =
              some true := by decide +kernel
  obtain ⟨forked, hforked, hrest⟩ := Option.bind_eq_some_iff.mp hstack
  obtain ⟨last, hlast, hmark⟩ := Option.map_eq_some_iff.mp hrest
  obtain ⟨record, hrun, -⟩ := Run.of_foldlM hforked
  have howned := (owned_run (owned_boot 64) hrun).1
  have hcall : Run (write 0) forked [(forked, (ustackBase, [9]))] last := .step hlast (.done last)
  refine ⟨forked, last, howned, hcall, ((run_unseen_iff howned hcall).mpr ?_).1⟩
  intro entry hentry
  rw [List.mem_singleton] at hentry
  subst hentry
  refine harmlessCall_of_writable howned (by decide) ?_
  intro own hown offset hoffset
  rw [hown, Option.all_some] at hmark
  obtain rfl : offset = 0 := Nat.lt_one_iff.mp hoffset
  exact hmark

/-- A process forks, and a byte is copied out to the first page of the parent. -/
theorem exists_run_seen : ∃ record forked last, Run step (boot 64) record forked ∧
      record.map Prod.snd = [.userInit 0 [1, 2, 3], .fork 0 1] ∧
      Run (write 0) forked [(forked, (0, [9]))] last ∧ ¬Unseen 1 forked last := by
  have hseen : (([.userInit 0 [1, 2, 3], .fork 0 1] : List Action).foldlM step
      (boot 64)).bind (fun forked => (write 0 forked (0, [9])).bind
        fun last => (forked.spaces 1).map fun space =>
          (userByte space.table forked 0, userByte space.table last 0)) =
            some (some 1, some 9) := by decide +kernel
  obtain ⟨forked, hforked, hrest⟩ := Option.bind_eq_some_iff.mp hseen
  obtain ⟨last, hlast, hbytes⟩ := Option.bind_eq_some_iff.mp hrest
  obtain ⟨space, hspace, hpair⟩ := Option.map_eq_some_iff.mp hbytes
  obtain ⟨record, hrun, hactions⟩ := Run.of_foldlM hforked
  refine ⟨record, forked, last, hrun, hactions, .step hlast (.done last), ?_⟩
  intro hunseen
  have hsame := hunseen space hspace 0
  obtain ⟨hbefore, hafter⟩ := Prod.mk.inj hpair
  rw [hbefore, hafter] at hsame
  exact absurd hsame (by decide)

end Calls

end RxOs.KernelWrites
