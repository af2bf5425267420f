import RxOs.Core.Transition
import RxOs.Fs.BufControl

/-!
# The order of the buffers

Calls of `find_cached`, `recycle` and `move_if_no_ref`, one after the other.
`BCache::get` is `find_cached`, followed by `recycle` if nothing was found, and
dropping a `Buf` calls `move_if_no_ref`.  The links stay a ring through all the
slots, and the slots without references stay sorted by the time at which they
lost their last one.
-/

namespace RxOs.BufOrder

open Function Transition LinkedRing BufControl

/-! ## Going round a ring -/

section Ring

variable {Node : Type*} {links : Links Node} {order : List Node}

/-- The nodes of a ring in terms of its links. -/
theorem iterate_next (hring : Ring links order) {index : ℕ} (hindex : index < order.length) :
    links.next^[index] links.head = order[index] := by
  induction index with
  | zero =>
    have hhead := hring.head_eq
    rw [List.head?_eq_getElem?, List.getElem?_eq_getElem hindex] at hhead
    exact (Option.some.inj hhead).symm
  | succ index ih =>
    rw [iterate_succ_apply', ih (by omega)]
    exact (List.isChain_iff_getElem.mp hring.chain index hindex).1

/-- Every node is followed by the one whose predecessor it is. -/
theorem prev_next (hring : Ring links order) {node : Node}
    (hnode : node ∈ order) : links.prev (links.next node) = node := by
  obtain ⟨index, hindex, rfl⟩ := List.mem_iff_getElem.mp hnode
  by_cases hlast : index + 1 < order.length
  · have hlinked := List.isChain_iff_getElem.mp hring.chain index hlast
    rw [hlinked.1, hlinked.2]
  · have htail := hring.tail_eq
    rw [List.getLast?_eq_getElem?, List.getElem?_eq_some_iff] at htail
    obtain ⟨hlt, htail⟩ := htail
    have hindex' : index = order.length - 1 := by omega
    simp only [hindex', htail]
    rw [hring.closed.1, hring.closed.2]

/-- The loop that follows `next` from `start`, until it hits or is back, is left
in turn number `turns`. -/
def LeavesAt (next : Node → Node) (hit : Node → Prop) (start : Node) (turns : ℕ) : Prop :=
  (hit (next^[turns] start) ∨ next^[turns + 1] start = start) ∧
    ∀ earlier < turns, ¬(hit (next^[earlier] start) ∨
      next^[earlier + 1] start = start)

theorem exists_leavesAt {next : Node → Node} {start : Node} {count : ℕ}
    (hpos : 0 < count) (hback : next^[count] start = start)
    (hit : Node → Prop) : ∃ turns < count, LeavesAt next hit start turns := by
  classical
  have hleaves : ∃ turns, hit (next^[turns] start) ∨
      next^[turns + 1] start = start := by
    refine ⟨count - 1, Or.inr ?_⟩
    rwa [Nat.sub_add_cancel hpos]
  refine ⟨Nat.find hleaves, ?_, Nat.find_spec hleaves, fun earlier => Nat.find_min hleaves⟩
  refine (Nat.find_lt_iff hleaves count).mpr ⟨count - 1, by omega, Or.inr ?_⟩
  rwa [Nat.sub_add_cancel hpos]

end Ring

/-! ## Calls -/

/-- The list of slots, with the time at which each slot lost its last reference;
zero stands for never. -/
structure Aged where
  lru : BufLru
  clock : ℕ
  released : Slot → ℕ

inductive Action
  | findCached (dev blockno : UInt32)
  | recycle (dev blockno : UInt32)
  | moveIfNoRef (slot : Slot)

def boot : Aged := ⟨BufLru.new, 0, fun _ => 0⟩

def Aged.searched (aged : Aged) (result : Option (Slot × BufLru)) : Aged :=
  { aged with lru := (result.map Prod.snd).getD aged.lru }

def Aged.moved (aged : Aged) (slot : Slot) (lru : BufLru) : Aged :=
  if lru.refcnt slot = 0 then
    ⟨lru, aged.clock + 1, update aged.released slot (aged.clock + 1)⟩
  else { aged with lru }

def step (aged : Aged) : Action → Option Aged
  | .findCached dev blockno => some (aged.searched (aged.lru.findCached dev blockno))
  | .recycle dev blockno => some (aged.searched (aged.lru.recycle dev blockno))
  | .moveIfNoRef slot => (aged.lru.moveIfNoRef slot).map (aged.moved slot)

/-- Slots without references come in the order of their times, the latest
first. -/
structure Sorted (aged : Aged) (order : List Slot) : Prop where
  index_eq : aged.lru.index = id
  ring : Ring aged.lru.links order
  all : ∀ slot, slot ∈ order
  times : order.Pairwise fun left right => aged.lru.refcnt left = 0 →
    aged.lru.refcnt right = 0 → aged.released right ≤ aged.released left
  clock : ∀ slot, aged.released slot ≤ aged.clock

variable {aged next : Aged} {order : List Slot}

theorem Sorted.complete (hsorted : Sorted aged order) : aged.lru.Complete :=
  ⟨hsorted.index_eq, order, hsorted.ring, hsorted.all⟩

theorem zero_of_update {refcnt : Slot → ℕ} {slot other : Slot} {count : ℕ}
    (hzero : update refcnt slot (count + 1) other = 0) : refcnt other = 0 := by
  by_cases hother : other = slot
  · rw [hother, update_self] at hzero
    cases hzero
  · rwa [update_of_ne hother] at hzero

/-- A search that takes one more reference changes neither order nor times. -/
theorem Sorted.searched (hsorted : Sorted aged order) {result : Option (Slot × BufLru)}
    (hresult : ∀ slot lru, result = some (slot, lru) →
      lru.index = aged.lru.index ∧ lru.links = aged.lru.links ∧
        ∃ count, lru.refcnt = update aged.lru.refcnt slot (count + 1)) :
    Sorted (aged.searched result) order := by
  match result with
  | none => exact hsorted
  | some (slot, lru) =>
    obtain ⟨hindex, hlinks, count, hrefcnt⟩ := hresult slot lru rfl
    have hzero : ∀ other, lru.refcnt other = 0 → aged.lru.refcnt other = 0 := by
      intro other hother
      rw [hrefcnt] at hother
      exact zero_of_update hother
    exact ⟨hindex.trans hsorted.index_eq, hlinks.symm ▸ hsorted.ring,
      hsorted.all, hsorted.times.imp fun htimes hleft hright =>
        htimes (hzero _ hleft) (hzero _ hright), hsorted.clock⟩

theorem Sorted.moveIfNoRef (hsorted : Sorted aged order) {slot : Slot}
    {lru : BufLru} (hmove : aged.lru.moveIfNoRef slot = some lru) :
    ∃ after, Sorted (aged.moved slot lru) after := by
  obtain ⟨-, ⟨hindex, -⟩, -, -, hrefcnt⟩ := BufLru.moveIfNoRef_eq_some hsorted.complete hmove
  obtain ⟨after, hring, hperm, hfirst, hsame⟩ :=
    BufLru.moveIfNoRef_ring hsorted.ring (hsorted.all slot) hmove
  have hall : ∀ other, other ∈ after := fun other => hperm.mem_iff.mpr (hsorted.all other)
  have hother : ∀ other ≠ slot, lru.refcnt other = aged.lru.refcnt other := by
    intro other hne
    rw [hrefcnt, update_of_ne hne]
  refine ⟨after, ?_⟩
  rw [Aged.moved]
  split
  · next hzero =>
      obtain ⟨rest, rfl, hrest⟩ := hfirst hzero
      have hnot := (List.nodup_cons.mp hring.nodup).1
      refine ⟨hindex, hring, hall, List.pairwise_cons.mpr ⟨?_, ?_⟩, ?_⟩ <;>
        dsimp only
      · intro other hmem _ _
        have hne : other ≠ slot := fun heq => hnot (heq ▸ hmem)
        rw [update_self, update_of_ne hne]
        exact (hsorted.clock other).trans (Nat.le_succ _)
      · refine (hsorted.times.sublist hrest).imp_of_mem ?_
        intro left right hleft hright htimes
        have hl : left ≠ slot := fun heq => hnot (heq ▸ hleft)
        have hr : right ≠ slot := fun heq => hnot (heq ▸ hright)
        rw [hother left hl, hother right hr, update_of_ne hl, update_of_ne hr]
        exact htimes
      · intro other
        by_cases hne : other = slot
        · rw [hne, update_self]
        · rw [update_of_ne hne]
          exact (hsorted.clock other).trans (Nat.le_succ _)
  · next hmore =>
      rw [hsame hmore] at hring ⊢
      refine ⟨hindex, hring, hsorted.all, hsorted.times.imp ?_, hsorted.clock⟩
      have hzero : ∀ other, lru.refcnt other = 0 → aged.lru.refcnt other = 0 := by
        intro other hother'
        rwa [← hother other fun heq => hmore (heq ▸ hother')]
      intro left right htimes hleft hright
      exact htimes (hzero _ hleft) (hzero _ hright)

theorem exists_sorted_step {action : Action} (hsorted : ∃ order, Sorted aged order)
    (hstep : step aged action = some next) : ∃ order, Sorted next order := by
  obtain ⟨order, hsorted⟩ := hsorted
  cases action with
  | findCached dev blockno =>
    cases hstep
    refine ⟨order, hsorted.searched fun slot lru hfind => ?_⟩
    obtain ⟨-, -, rfl⟩ := BufLru.findCached_eq_some hsorted.complete hfind
    exact ⟨rfl, rfl, _, rfl⟩
  | recycle dev blockno =>
    cases hstep
    refine ⟨order, hsorted.searched fun slot lru hrecycle => ?_⟩
    obtain ⟨-, rfl⟩ := BufLru.recycle_eq_some hsorted.complete hrecycle
    exact ⟨rfl, rfl, 0, rfl⟩
  | moveIfNoRef slot =>
    obtain ⟨lru, hmove, rfl⟩ := Option.map_eq_some_iff.mp hstep
    exact hsorted.moveIfNoRef hmove

theorem sorted_boot : Sorted boot (List.finRange nbuf) where
  index_eq := rfl
  ring := BufLru.ring_new
  all := List.mem_finRange
  times := List.pairwise_of_forall fun _ _ _ _ => Nat.le_refl 0
  clock := fun _ => Nat.le_refl 0

theorem exists_sorted {last : Aged} {record : List (Aged × Action)}
    (hrun : Run step boot record last) : ∃ order, Sorted last order := by
  have hkeep : ∀ aged action next, (∃ order, Sorted aged order) →
      step aged action = some next → ∃ order, Sorted next order :=
    fun _ _ _ hsorted hstep => exists_sorted_step hsorted hstep
  exact (hrun.always hkeep ⟨_, sorted_boot⟩).1

/-! ## The shape of the list -/

/-- The links go once round all the slots, and the searches find what there is
within one round. -/
structure Shape (lru : BufLru) : Prop where
  visits : Bijective fun turn : Fin nbuf => lru.links.next^[turn] lru.links.head
  returns : lru.links.next^[nbuf] lru.links.head = lru.links.head
  prev_next : LeftInverse lru.links.prev lru.links.next
  next_prev : RightInverse lru.links.prev lru.links.next
  tail_eq : lru.links.tail = lru.links.prev lru.links.head
  index_eq : lru.index = id
  find_leaves : ∀ dev blockno, ∃ turns < nbuf, LeavesAt lru.links.next
    (fun slot => lru.dev slot = dev ∧ lru.blockno slot = blockno) lru.links.head turns
  recycle_leaves : ∃ turns < nbuf, LeavesAt lru.links.prev
    (fun slot => lru.refcnt slot = 0) lru.links.tail turns
  finds : ∀ slot, ∃ found after, lru.findCached (lru.dev slot)
    (lru.blockno slot) = some (found, after) ∧ lru.dev found = lru.dev slot ∧
      lru.blockno found = lru.blockno slot
  recycles : ∀ slot dev blockno, lru.refcnt slot = 0 → ∃ found after,
    lru.recycle dev blockno = some (found, after) ∧ lru.refcnt found = 0

theorem iterate_nbuf {links : Links Slot} (hring : Ring links order)
    (hlength : order.length = nbuf) : links.next^[nbuf] links.head = links.head := by
  have hpos : 0 < nbuf := by decide
  have hlast := iterate_next hring (show nbuf - 1 < order.length by omega)
  have htail := hring.tail_eq
  rw [List.getLast?_eq_getElem?, List.getElem?_eq_some_iff] at htail
  obtain ⟨hindex, htail⟩ := htail
  rw [← Nat.sub_add_cancel hpos, iterate_succ_apply', hlast]
  simp only [hlength] at htail
  rw [htail, hring.closed.1]

theorem Sorted.shape (hsorted : Sorted aged order) : Shape aged.lru := by
  have hring := hsorted.ring
  have hall := hsorted.all
  have hlength : order.length = nbuf := by
    have hcard := List.toFinset_card_of_nodup hring.nodup
    rw [Finset.eq_univ_of_forall fun slot => List.mem_toFinset.mpr (hall slot),
      Finset.card_univ, Fintype.card_fin] at hcard
    exact hcard.symm
  have hreverse : order.reverse.length = nbuf := by rwa [List.length_reverse]
  have hpos : 0 < nbuf := by decide
  refine ⟨⟨?_, ?_⟩, iterate_nbuf hring hlength,
    fun slot => prev_next hring (hall slot), ?_, hring.closed.2.symm,
    hsorted.index_eq, fun dev blockno => exists_leavesAt hpos (iterate_nbuf hring hlength) _,
    exists_leavesAt hpos (iterate_nbuf hring.reverse hreverse) _, ?_, ?_⟩
  · intro left right heq
    have hleft := iterate_next hring (show left.val < order.length by omega)
    have hright := iterate_next hring (show right.val < order.length by omega)
    have hsame := hleft.symm.trans (heq.trans hright)
    exact Fin.ext ((hring.nodup.getElem_inj_iff).mp hsame)
  · intro slot
    obtain ⟨index, hindex, rfl⟩ := List.mem_iff_getElem.mp (hall slot)
    exact ⟨⟨index, by omega⟩, iterate_next hring hindex⟩
  · intro slot
    exact prev_next hring.reverse (List.mem_reverse.mpr (hall slot))
  · intro slot
    cases hfind : aged.lru.findCached (aged.lru.dev slot) (aged.lru.blockno slot) with
    | none => exact absurd rfl (BufLru.findCached_eq_none hsorted.complete hfind slot rfl)
    | some result =>
      obtain ⟨hdev, hblockno, -⟩ := BufLru.findCached_eq_some hsorted.complete hfind
      exact ⟨result.1, result.2, rfl, hdev, hblockno⟩
  · intro slot dev blockno hzero
    cases hrecycle : aged.lru.recycle dev blockno with
    | none =>
      have hunused := Option.map_eq_none_iff.mp hrecycle
      rw [BufLru.unused_eq hring] at hunused
      have hmiss := List.find?_eq_none.mp hunused slot (List.mem_reverse.mpr (hall slot))
      exact absurd hzero (by simpa using hmiss)
    | some result =>
      obtain ⟨hfound, -⟩ := BufLru.recycle_eq_some hsorted.complete hrecycle
      exact ⟨result.1, result.2, rfl, hfound⟩

/-- After every sequence of calls the list has its shape. -/
theorem run_shape {last : Aged} {record : List (Aged × Action)}
    (hrun : Run step boot record last) : Shape last.lru := by
  obtain ⟨order, hsorted⟩ := exists_sorted hrun
  exact hsorted.shape

/-- Two blocks are read, and dropped in the other order. -/
def sampleActions : List Action :=
  [.findCached 1 5, .recycle 1 5, .recycle 1 6, .findCached 1 5,
    .moveIfNoRef 29, .moveIfNoRef 28, .moveIfNoRef 29]

theorem run_shape_sample : ∃ record last, Run step boot record last ∧
    record.map Prod.snd = sampleActions ∧ Shape last.lru := by
  have hsome : (sampleActions.foldlM step boot).isSome = true := by decide +kernel
  obtain ⟨last, hfold⟩ := Option.isSome_iff_exists.mp hsome
  obtain ⟨record, hrun, hactions⟩ := Run.of_foldlM hfold
  exact ⟨record, last, hrun, hactions, run_shape hrun⟩

/-! ## The slot that is taken over -/

/-- After every sequence of calls, `recycle` takes over a slot that has been
without references at least as long as any other slot without references. -/
theorem run_recycle_oldest {last : Aged} {record : List (Aged × Action)}
    {dev blockno : UInt32} {slot : Slot} {after : BufLru} (hrun : Run step boot record last)
    (hrecycle : last.lru.recycle dev blockno = some (slot, after)) :
    last.lru.refcnt slot = 0 ∧ ∀ other, last.lru.refcnt other = 0 →
      last.released slot ≤ last.released other := by
  obtain ⟨order, hsorted⟩ := exists_sorted hrun
  obtain ⟨found, hunused, hpair⟩ := Option.map_eq_some_iff.mp hrecycle
  rw [hsorted.index_eq] at hpair
  obtain rfl : found = slot := congrArg Prod.fst hpair
  rw [BufLru.unused_eq hsorted.ring, List.find?_eq_some_iff_append] at hunused
  obtain ⟨hzero, behind, before, hreverse, hbehind⟩ := hunused
  have horder : order = before.reverse ++ found :: behind.reverse := by
    rw [← List.reverse_reverse order, hreverse]
    simp
  refine ⟨by simpa using hzero, fun other hother => ?_⟩
  have htimes := hsorted.times
  rw [horder, List.pairwise_append] at htimes
  have hmem := hsorted.all other
  rw [horder, List.mem_append, List.mem_cons] at hmem
  obtain hbefore | rfl | hlater := hmem
  · exact htimes.2.2 other hbefore found List.mem_cons_self hother (by simpa using hzero)
  · exact Nat.le_refl _
  · have hmiss := hbehind other (List.mem_reverse.mp hlater)
    exact absurd hother (by simpa using hmiss)

theorem run_recycle_oldest_sample : ∃ record last slot after,
    Run step boot record last ∧ record.map Prod.snd = sampleActions ∧
      last.lru.recycle 1 7 = some (slot, after) ∧ ∀ other, last.lru.refcnt other = 0 →
        last.released slot ≤ last.released other := by
  have hsome : ((sampleActions.foldlM step boot).bind fun aged =>
      aged.lru.recycle 1 7).isSome = true := by decide +kernel
  obtain ⟨⟨slot, after⟩, hboth⟩ := Option.isSome_iff_exists.mp hsome
  obtain ⟨last, hfold, hrecycle⟩ := Option.bind_eq_some_iff.mp hboth
  obtain ⟨record, hrun, hactions⟩ := Run.of_foldlM hfold
  exact ⟨record, last, slot, after, hrun, hactions, hrecycle, (run_recycle_oldest hrun hrecycle).2⟩

end RxOs.BufOrder
