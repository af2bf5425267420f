import RxOs.Memory.AddressSpace

/-!
# Walks that make tables

`translate` with allocation hangs a zeroed table under each entry on its way that
is not valid.  What survives the hanging of a table survives the walk.
-/

namespace RxOs.Walking

open Function Exec PageTable Frames AddressSpace
open Kernel (Proc)

/-- `map` with the size of a page maps one page. -/
theorem map_eq_mapPage {proc : Proc} {va frame : ℕ} {perm : Pte} (haligned : va % pgSize = 0) :
    map proc va frame pgSize perm = mapPage proc va frame perm := by
  have hdown : pageRoundDown va = va := Nat.div_mul_cancel (Nat.dvd_of_mod_eq_zero haligned)
  have hup : pageRoundUp (va + pgSize) = va + pgSize := by
    unfold pageRoundUp
    rw [show pgSize = 4096 from rfl] at haligned ⊢
    omega
  rw [map, hup, hdown, Nat.add_sub_cancel_left, Nat.div_self (by decide), mapPages]
  conv_rhs => rw [← bind_pure (mapPage proc va frame perm)]
  refine bind_congr fun mapped => ?_
  cases mapped <;> rfl

/-- The entry under which a walk for `va` has to hang a table. -/
inductive Wanting (table : Table) (va : ℕ) : Place → Prop
  | top (hinvalid : (table.top (pageNum va 2)).v = false) :
      Wanting table va (.top (pageNum va 2))
  | mid (htop : (table.top (pageNum va 2)).v = true)
      (hinvalid : (table.mid (pageNum va 2) (pageNum va 1)).v = false) :
      Wanting table va (.mid (pageNum va 2) (pageNum va 1))

/-- The entry at which a walk for `va` ends. -/
def Reaches (table : Table) (va : ℕ) (place : Place) : Prop :=
  (table.mid (pageNum va 2) (pageNum va 1)).v = true ∧ (place = slot va ∧
      (table.mid (pageNum va 2) (pageNum va 1)).isLeaf = false ∨
    place = .mid (pageNum va 2) (pageNum va 1) ∧
      (table.mid (pageNum va 2) (pageNum va 1)).isLeaf = true)

theorem Reaches.of_formed {table : Table} {va : ℕ} {place : Place}
    (hreaches : Reaches table va place) (hformed : table.Formed) :
    place = slot va ∧ (table.mid (pageNum va 2) (pageNum va 1)).v = true := by
  obtain ⟨hvalid, ⟨rfl, -⟩ | ⟨-, hleaf⟩⟩ := hreaches
  · exact ⟨rfl, hvalid⟩
  · rw [(hformed.mid_table _ _ hvalid).1] at hleaf
    cases hleaf

/-- What survives the hanging of a table on the way to `va`, with what is known
when the free list has run dry. -/
structure Survives (inv : Memory → Space → Prop) (proc : Proc) (va : ℕ)
    (stopped : Panic → Memory → Prop) : Prop where
  spaces : ∀ memory found, inv memory found → memory.spaces proc = some found
  layered : ∀ memory found, inv memory found → found.table.Layered
  hang : ∀ memory found place frame rest, inv memory found → Wanting found.table va place →
    memory.free = frame :: rest → inv
      { memory.taken frame rest with
        spaces := update memory.spaces proc
          (some { found with table := found.table.hang place frame }) }
      { found with table := found.table.hang place frame }
  starved : ∀ memory found place, inv memory found → Wanting found.table va place →
    memory.free = [] → stopped .outOfMemory memory

variable {inv : Memory → Space → Prop} {proc : Proc} {va : ℕ} {stopped : Panic → Memory → Prop}
variable {memory : Memory} {found : Space}

theorem Survives.ensures_hang (hsurvives : Survives inv proc va stopped)
    (hinv : inv memory found) {place : Place} (hwanting : Wanting found.table va place)
    {rest : MemM (Option Place)} {returned : Option Place → Memory → Prop}
    (hrest : ∀ frame next, inv next { found with table := found.table.hang place frame } →
      Ensures rest next returned stopped) :
    Ensures (do
      let frame ← alloc
      modifyTable proc fun table => table.hang place frame
      rest) memory returned stopped := by
  rw [ensures_bind]
  refine ensures_alloc.mpr ⟨hsurvives.starved _ _ _ hinv hwanting, ?_⟩
  intro frame free hfree
  have hfound : (memory.taken frame free).spaces proc = some found :=
    hsurvives.spaces memory found hinv
  rw [ensures_bind, ensures_modifyTable hfound]
  exact hrest frame _ (hsurvives.hang _ _ _ _ _ hinv hwanting hfree)

theorem Survives.ensures_walkMid (hsurvives : Survives inv proc va stopped)
    (hinv : inv memory found) (htop : (found.table.top (pageNum va 2)).v = true) :
    Ensures (walkMid proc va) memory (fun place next => ∃ stop after,
      place = some stop ∧ inv next after ∧ Reaches after.table va stop) stopped := by
  rw [walkMid, ensures_bind, ensures_space_found (hsurvives.spaces _ _ hinv)]
  refine ensures_ite.mpr ⟨fun hmid => ensures_ite.mpr ⟨fun hleaf => ?_, fun hleaf => ?_⟩,
    fun hmid => ?_⟩
  · exact ⟨_, found, rfl, hinv, hmid, .inr ⟨rfl, hleaf⟩⟩
  · exact ⟨_, found, rfl, hinv, hmid, .inl ⟨rfl, by simpa using hleaf⟩⟩
  · apply hsurvives.ensures_hang hinv (.mid htop (by simpa using hmid))
    intro frame next hnext
    refine ⟨_, _, rfl, hnext, ?_⟩
    rw [Reaches, Table.mid_hang_mid, if_pos ⟨rfl, rfl⟩]
    exact ⟨rfl, .inl ⟨rfl, rfl⟩⟩

/-- `translate` with allocation. -/
theorem Survives.ensures_walk (hsurvives : Survives inv proc va stopped)
    (hinv : inv memory found) (hva : va ≤ maxVa) :
    Ensures (walk proc va) memory (fun place next => ∃ stop after,
      place = some stop ∧ inv next after ∧ Reaches after.table va stop) stopped := by
  rw [walk, if_neg (Nat.not_lt.mpr hva), ensures_bind,
    ensures_space_found (hsurvives.spaces _ _ hinv)]
  by_cases htop : (found.table.top (pageNum va 2)).v = true
  · rw [if_pos htop, (hsurvives.layered _ _ hinv).top_table _ htop]
    exact hsurvives.ensures_walkMid hinv htop
  · rw [if_neg htop]
    apply hsurvives.ensures_hang hinv (.top (by simpa using htop))
    intro frame next hnext
    apply hsurvives.ensures_walkMid hnext
    rw [Table.top_hang_top, if_pos rfl]
    rfl

end RxOs.Walking
