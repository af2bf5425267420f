import RxOs.Core.LinkedRing
import RxOs.Fs.Params

/-!
# The control blocks of the buffer cache

`BufLru` is what the spin lock of the buffer cache guards: for every slot the
block it stands for, its reference count and its place in the list of slots,
most recently used first.  Lookups walk the links; here they are shown to be
searches through all the slots, and releasing a slot is shown to keep the links
a ring through all of them.
-/

namespace RxOs.BufControl

open Function Params LinkedRing

def nbuf : ℕ := maxOpBlocks * 3

instance : NeZero nbuf := ⟨by decide⟩

/-- An index into `bufs` and `inner`. -/
abbrev Slot := Fin nbuf

/-- The arrays of `BufCtrl` fields, and the ends of the list. -/
structure BufLru where
  dev : Slot → UInt32
  blockno : Slot → UInt32
  refcnt : Slot → ℕ
  index : Slot → Slot
  links : Links Slot

namespace BufLru

def new : BufLru where
  dev := fun _ => 0
  blockno := fun _ => 0
  refcnt := fun _ => 0
  index := id
  links :=
    { next := fun slot =>
        if h : slot.val + 1 < nbuf then ⟨slot.val + 1, h⟩ else ⟨0, by decide⟩
      prev := fun slot =>
        if slot.val = 0 then ⟨nbuf - 1, by decide⟩
        else ⟨slot.val - 1, by omega⟩
      head := ⟨0, by decide⟩
      tail := ⟨nbuf - 1, by decide⟩ }

def setRefcnt (lru : BufLru) (slot : Slot) (refcnt : ℕ) : BufLru :=
  { lru with refcnt := update lru.refcnt slot refcnt }

/-- The slot that `find_cached` comes to first. -/
def lookup (lru : BufLru) (dev blockno : UInt32) : Option Slot :=
  seek lru.links.next (fun slot => lru.dev slot = dev ∧ lru.blockno slot = blockno)
    lru.links.head nbuf lru.links.head

/-- The slot that `recycle` comes to first. -/
def unused (lru : BufLru) : Option Slot :=
  seek lru.links.prev (fun slot => lru.refcnt slot = 0) lru.links.tail nbuf lru.links.tail

def findCached (lru : BufLru) (dev blockno : UInt32) : Option (Slot × BufLru) :=
  (lru.lookup dev blockno).map fun slot =>
    (lru.index slot, lru.setRefcnt slot (lru.refcnt slot + 1))

def recycle (lru : BufLru) (dev blockno : UInt32) : Option (Slot × BufLru) :=
  lru.unused.map fun slot =>
    (lru.index slot, { lru with
      dev := update lru.dev slot dev
      blockno := update lru.blockno slot blockno
      refcnt := update lru.refcnt slot 1 })

/-- `move_if_no_ref`; `none` when the subtraction underflows. -/
def moveIfNoRef (lru : BufLru) (slot : Slot) : Option BufLru :=
  if lru.refcnt slot = 0 then none
  else
    let released := lru.setRefcnt slot (lru.refcnt slot - 1)
    if released.refcnt slot = 0 ∧ slot ≠ lru.links.head then
      some { released with links := lru.links.moveFront slot }
    else some released

/-- The links are a ring through all slots, and every slot knows its place. -/
def Complete (lru : BufLru) : Prop :=
  lru.index = id ∧ ∃ order, Ring lru.links order ∧ ∀ slot, slot ∈ order

theorem ring_new : Ring new.links (List.finRange nbuf) := by
  refine ⟨List.nodup_finRange nbuf, by decide, by decide, ?_, by decide, by decide⟩
  rw [List.isChain_iff_getElem]
  intro index hindex
  rw [List.length_finRange] at hindex
  have hpos : index + 1 ≠ 0 := by omega
  simp [Links.Linked, new, hindex]

theorem complete_new : new.Complete :=
  ⟨rfl, List.finRange nbuf, ring_new, List.mem_finRange⟩

variable {lru next : BufLru} {dev blockno : UInt32} {slot : Slot}
variable {order : List Slot}

theorem length_le (hring : Ring lru.links order) : order.length ≤ nbuf := by
  simpa using hring.nodup.length_le_card

/-- `find_cached` searches the slots in their order. -/
theorem lookup_eq (hring : Ring lru.links order) (dev blockno : UInt32) :
    lru.lookup dev blockno = order.find? fun slot =>
      lru.dev slot = dev ∧ lru.blockno slot = blockno :=
  hring.seek_eq _ (length_le hring)

/-- `recycle` searches them from the last one on. -/
theorem unused_eq (hring : Ring lru.links order) :
    lru.unused = order.reverse.find? fun slot => lru.refcnt slot = 0 :=
  hring.reverse.seek_eq _ (by simpa using length_le hring)

/-- `get` finds the slot of the block, or takes over one without references. -/
theorem findCached_eq_some (hcomplete : lru.Complete)
    (hfind : lru.findCached dev blockno = some (slot, next)) :
    lru.dev slot = dev ∧ lru.blockno slot = blockno ∧
      next = lru.setRefcnt slot (lru.refcnt slot + 1) := by
  obtain ⟨found, hlookup, hpair⟩ := Option.map_eq_some_iff.mp hfind
  obtain ⟨hindex, order, hring, -⟩ := hcomplete
  obtain ⟨hslot, rfl⟩ := Prod.mk.inj hpair
  obtain rfl : found = slot := hslot ▸ (congrFun hindex found).symm
  rw [lookup_eq hring] at hlookup
  have hkey : lru.dev found = dev ∧ lru.blockno found = blockno := by
    simpa using List.find?_some hlookup
  exact ⟨hkey.1, hkey.2, rfl⟩

theorem findCached_eq_none (hcomplete : lru.Complete)
    (hfind : lru.findCached dev blockno = none) (slot : Slot)
    (hdev : lru.dev slot = dev) : lru.blockno slot ≠ blockno := by
  have hlookup := Option.map_eq_none_iff.mp hfind
  obtain ⟨-, order, hring, hall⟩ := hcomplete
  rw [lookup_eq hring] at hlookup
  have hmiss := List.find?_eq_none.mp hlookup slot (hall slot)
  simpa [hdev] using hmiss

theorem recycle_eq_some (hcomplete : lru.Complete)
    (hrecycle : lru.recycle dev blockno = some (slot, next)) :
    lru.refcnt slot = 0 ∧ next = { lru with
      dev := update lru.dev slot dev
      blockno := update lru.blockno slot blockno
      refcnt := update lru.refcnt slot 1 } := by
  obtain ⟨found, hunused, hpair⟩ := Option.map_eq_some_iff.mp hrecycle
  obtain ⟨hindex, order, hring, -⟩ := hcomplete
  obtain ⟨hslot, rfl⟩ := Prod.mk.inj hpair
  obtain rfl : found = slot := hslot ▸ (congrFun hindex found).symm
  rw [unused_eq hring] at hunused
  exact ⟨by simpa using List.find?_some hunused, rfl⟩

/-- What a release does to the order: the slot comes first if it has no
references left. -/
theorem moveIfNoRef_ring (hring : Ring lru.links order) (hslot : slot ∈ order)
    (hmove : lru.moveIfNoRef slot = some next) :
    ∃ after, Ring next.links after ∧ after.Perm order ∧
      (next.refcnt slot = 0 → ∃ rest, after = slot :: rest ∧ rest.Sublist order) ∧
      (next.refcnt slot ≠ 0 → after = order) := by
  obtain ⟨-, hmove⟩ := Option.ite_none_left_eq_some.mp hmove
  dsimp only at hmove
  split at hmove
  · next hfront =>
      cases hmove
      obtain ⟨left, right, rfl⟩ := List.append_of_mem hslot
      refine ⟨slot :: (left ++ right), hring.moveFront hfront.2,
        List.perm_middle.symm, fun _ => ⟨_, rfl, ?_⟩, fun hne => absurd hfront.1 hne⟩
      exact (List.sublist_cons_self _ _).append_left _
  · next hstay =>
      cases hmove
      refine ⟨order, hring, .refl _, fun hzero => ?_, fun _ => rfl⟩
      obtain rfl : slot = lru.links.head := by
        by_contra hne
        exact hstay ⟨hzero, hne⟩
      have hhead := hring.head_eq
      cases order with
      | nil => cases hhead
      | cons first rest =>
        obtain rfl : first = lru.links.head := by simpa using hhead
        exact ⟨rest, rfl, List.sublist_cons_self _ _⟩

/-- What a release does, apart from the order of the slots. -/
theorem moveIfNoRef_eq_some (hcomplete : lru.Complete) (hmove : lru.moveIfNoRef slot = some next) :
    0 < lru.refcnt slot ∧ next.Complete ∧ next.dev = lru.dev ∧
      next.blockno = lru.blockno ∧
      next.refcnt = update lru.refcnt slot (lru.refcnt slot - 1) := by
  obtain ⟨hindex, order, hring, hall⟩ := hcomplete
  obtain ⟨after, hafter, hperm, -⟩ := moveIfNoRef_ring hring (hall slot) hmove
  have hmem : ∀ other, other ∈ after := fun other => hperm.mem_iff.mpr (hall other)
  obtain ⟨hzero, hmove⟩ := Option.ite_none_left_eq_some.mp hmove
  refine ⟨Nat.pos_of_ne_zero hzero, ?_⟩
  dsimp only at hmove
  split at hmove
  all_goals
    cases hmove
    exact ⟨⟨hindex, after, hafter, hmem⟩, rfl, rfl, rfl⟩

end BufLru

end RxOs.BufControl
