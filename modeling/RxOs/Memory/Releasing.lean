import RxOs.Memory.Holdings

/-!
# Dropping a page table

A program *releases* pieces of an address space if it gives back the page of
each of them once and touches nothing else.  What giving back means is left to
the books that are kept of the pages: any books that survive `dealloc` survive
the drop of a table.
-/

namespace RxOs.Releasing

open Function Exec PageTable Frames AddressSpace Holdings

variable {Holder : Type} [DecidableEq Holder]

/-- Books of who holds which page that survive giving a page back. -/
def Keeper (keeps : Memory → (Holder → Option ℕ) → Prop) (stopped : Panic → Memory → Prop) : Prop :=
  ∀ memory held holder frame, keeps memory held → held holder = some frame →
    Ensures (dealloc frame) memory (fun _ next =>
      next = Memory.dropped memory frame ∧ keeps next (update held holder none)) stopped

/-- The program gives back the pages that an address space holds for `pieces`,
and nothing else. -/
def Releases (keeps : Memory → (Holder → Option ℕ) → Prop)
    (stopped : Panic → Memory → Prop) (name : Piece → Holder) (found : Space)
    (program : MemM Unit) (pieces : Piece → Prop) : Prop :=
  ∀ memory held, keeps memory held →
    (∀ piece, pieces piece → held (name piece) = holds found piece) →
    Ensures program memory (fun _ next =>
      (next.spaces = memory.spaces ∧ next.kernel = memory.kernel ∧
        next.bytes = memory.bytes) ∧ ∃ kept, keeps next kept ∧
          (∀ piece, pieces piece → kept (name piece) = none) ∧
          ∀ holder, (∀ piece, pieces piece → holder ≠ name piece) →
            kept holder = held holder) stopped

/-- The valid entries of the last level are no pointers to tables. -/
def Leafy (table : Table) : Prop :=
  ∀ i j k, (table.bottom i j k).v = true → (table.bottom i j k).isLeaf = true

theorem leafy_empty : Leafy Table.empty := nofun

section Releases

variable {keeps : Memory → (Holder → Option ℕ) → Prop}
variable {stopped : Panic → Memory → Prop} {name : Piece → Holder}
variable {found : Space} {first second : MemM Unit} {left right : Piece → Prop}

omit [DecidableEq Holder] in
theorem releases_pure (hnone : ∀ piece, left piece → holds found piece = none) :
    Releases keeps stopped name found (pure ()) left := by
  intro memory held hkeeps hheld
  refine ⟨⟨rfl, rfl, rfl⟩, held, hkeeps, ?_, fun _ _ => rfl⟩
  intro piece hpiece
  rw [hheld piece hpiece, hnone piece hpiece]

theorem releases_dealloc (hkeeper : Keeper keeps stopped) {piece : Piece}
    {frame : ℕ} (hholds : holds found piece = some frame) :
    Releases keeps stopped name found (dealloc frame) (· = piece) := by
  intro memory held hkeeps hheld
  refine (hkeeper memory held (name piece) frame hkeeps
    ((hheld piece rfl).trans hholds)).imp_returned ?_
  rintro _ next ⟨rfl, hnext⟩
  refine ⟨⟨rfl, rfl, rfl⟩, _, hnext, ?_, ?_⟩
  · rintro _ rfl
    exact update_self ..
  · intro holder hholder
    exact update_of_ne (hholder piece rfl) ..

omit [DecidableEq Holder] in
theorem releases_bind (hname : Injective name)
    (hfirst : Releases keeps stopped name found first left)
    (hsecond : Releases keeps stopped name found second right)
    (hdisjoint : ∀ piece, left piece → ¬right piece) :
    Releases keeps stopped name found (do first; second) fun piece => left piece ∨ right piece := by
  intro memory held hkeeps hheld
  rw [ensures_bind]
  refine (hfirst memory held hkeeps fun piece hpiece => hheld piece (Or.inl hpiece)).imp_returned ?_
  rintro _ middle ⟨⟨hspaces, hkernel, hbytes⟩, between, hbetween, hgone, hsame⟩
  have hout : ∀ piece, right piece → between (name piece) = held (name piece) := by
    intro piece hpiece
    refine hsame _ ?_
    rintro other hother heq
    exact hdisjoint piece (hname heq ▸ hother) hpiece
  refine (hsecond middle between hbetween ?_).imp_returned ?_
  · intro piece hpiece
    rw [hout piece hpiece, hheld piece (Or.inr hpiece)]
  · rintro _ last ⟨⟨hspaces', hkernel', hbytes'⟩, kept, hkept, hgone', hsame'⟩
    refine ⟨⟨hspaces'.trans hspaces, hkernel'.trans hkernel,
      hbytes'.trans hbytes⟩, kept, hkept, ?_, ?_⟩
    · rintro piece hpiece
      by_cases hright : right piece
      · exact hgone' piece hright
      · have hleft := hpiece.resolve_right hright
        rw [hsame', hgone piece hleft]
        rintro other hother heq
        exact hright (hname heq ▸ hother)
    · intro holder hholder
      rw [hsame' holder fun piece hpiece => hholder piece (Or.inr hpiece),
        hsame holder fun piece hpiece => hholder piece (Or.inl hpiece)]

omit [DecidableEq Holder] in
theorem releases_forM (hname : Injective name) {Item : Type}
    {body : Item → MemM Unit} (pieces : Item → Piece → Prop)
    (items : List Item) (hnodup : items.Nodup)
    (hbody : ∀ item, Releases keeps stopped name found (body item) (pieces item))
    (hdisjoint : ∀ item other piece, pieces item piece → pieces other piece → item = other) :
    Releases keeps stopped name found (items.forM body)
      fun piece => ∃ item ∈ items, pieces item piece := by
  induction items with
  | nil =>
    refine releases_pure ?_
    rintro piece ⟨item, hitem, -⟩
    cases hitem
  | cons item items ih =>
    rw [List.nodup_cons] at hnodup
    have hseq := releases_bind hname (hbody item) (ih hnodup.2) (by
      rintro piece hpiece ⟨other, hother, hpiece'⟩
      exact hnodup.1 (hdisjoint item other piece hpiece hpiece' ▸ hother))
    have hpieces : (fun piece => ∃ other ∈ item :: items,
        pieces other piece) = fun piece => pieces item piece ∨
          ∃ other ∈ items, pieces other piece := by
      funext piece
      simp only [List.exists_mem_cons_iff]
    rw [hpieces]
    exact hseq

def Under (i : Index) (piece : Piece) : Prop :=
  (∃ j, piece = .bottom i j) ∨ piece = .mid i

/-- The drop of a table of the last level stops at a pointer, if there is
one. -/
theorem releases_dropBottom (hkeeper : Keeper keeps stopped)
    (hwild : Leafy found.table ∨ ∀ memory, stopped .wildEntry memory)
    {i j : Index} (hmid : (found.table.mid i j).v = true) :
    Releases keeps stopped name found (dropBottom found.table i j) (· = .bottom i j) := by
  have hholds : holds found (.bottom i j) = some (found.table.mid i j).ppn := target_eq_some hmid
  intro memory held hkeeps hheld
  refine ensures_ite.mpr ⟨?_, fun _ => releases_dealloc hkeeper hholds memory held hkeeps hheld⟩
  intro hany
  rcases hwild with hleafy | hstopped
  · obtain ⟨k, -, hpointer⟩ := List.any_eq_true.mp hany
    rw [Bool.and_eq_true, Bool.not_eq_true'] at hpointer
    rw [hleafy i j k hpointer.1] at hpointer
    cases hpointer.2
  · exact hstopped memory

theorem releases_dropMid (hname : Injective name)
    (hkeeper : Keeper keeps stopped) (hformed : found.table.Formed)
    (hwild : Leafy found.table ∨ ∀ memory, stopped .wildEntry memory)
    {i : Index} (hvalid : (found.table.top i).v = true) :
    Releases keeps stopped name found (dropMid found.table i) (Under i) := by
  have hbody : ∀ j, Releases keeps stopped name found
      (if (found.table.mid i j).v && !(found.table.mid i j).isLeaf then
        dropBottom found.table i j
      else return) (· = .bottom i j) := by
    intro j
    cases hmid : (found.table.mid i j).v with
    | true =>
      rw [(hformed.mid_table i j hmid).1, if_pos (by simp)]
      exact releases_dropBottom hkeeper hwild hmid
    | false =>
      rw [if_neg (by simp)]
      refine releases_pure ?_
      rintro piece rfl
      exact target_eq_none hmid
  have hloop := releases_forM hname (fun j piece => piece = .bottom i j)
    entries nodup_entries hbody (by
      rintro j k piece rfl heq
      injection heq)
  have hroot : holds found (.mid i) = some (found.table.top i).ppn := target_eq_some hvalid
  have hall := releases_bind hname hloop (releases_dealloc hkeeper hroot) (by
    rintro piece ⟨j, -, rfl⟩ heq
    cases heq)
  have hunder : Under i = fun piece => (∃ j ∈ entries, piece = .bottom i j) ∨ piece = .mid i := by
    funext piece
    simp only [Under, mem_entries, true_and]
  rw [hunder]
  exact hall

/-- `PageTable::drop` gives back the tables. -/
theorem releases_dropTable (hname : Injective name)
    (hkeeper : Keeper keeps stopped) (hformed : found.table.Formed)
    (hwild : Leafy found.table ∨ ∀ memory, stopped .wildEntry memory) :
    Releases keeps stopped name found (dropTable found.table) fun piece => ∃ i, Under i piece := by
  have hbody : ∀ i, Releases keeps stopped name found
      (if (found.table.top i).v && !(found.table.top i).isLeaf then
        dropMid found.table i
      else return) (Under i) := by
    intro i
    cases htop : (found.table.top i).v with
    | true =>
      rw [hformed.top_table i htop, if_pos (by simp)]
      exact releases_dropMid hname hkeeper hformed hwild htop
    | false =>
      rw [if_neg (by simp)]
      refine releases_pure ?_
      rintro piece (⟨j, rfl⟩ | rfl)
      · refine target_eq_none (Bool.eq_false_iff.mpr ?_)
        intro hmid
        rw [(hformed.mid_table i j hmid).2] at htop
        cases htop
      · exact target_eq_none htop
  have hloop := releases_forM hname Under entries nodup_entries hbody (by
      rintro i k piece (⟨j, rfl⟩ | rfl) (⟨j', heq⟩ | heq)
      · injection heq
      · cases heq
      · cases heq
      · injection heq)
  have hall : (fun piece => ∃ i, Under i piece) = fun piece => ∃ i ∈ entries, Under i piece := by
    funext piece
    simp only [mem_entries, true_and]
  rw [hall]
  exact hloop

/-- The drop of a table and of its root. -/
theorem releases_dropRoot (hname : Injective name)
    (hkeeper : Keeper keeps stopped) (hformed : found.table.Formed)
    (hwild : Leafy found.table ∨ ∀ memory, stopped .wildEntry memory) :
    Releases keeps stopped name found (do
      dropTable found.table
      dealloc found.root) fun piece => (∃ i, Under i piece) ∨ piece = .root := by
  have hroot : holds found .root = some found.root := rfl
  refine releases_bind hname (releases_dropTable hname hkeeper hformed hwild)
    (releases_dealloc hkeeper hroot) ?_
  rintro piece ⟨i, ⟨j, rfl⟩ | rfl⟩ heq <;> cases heq

end Releases

end RxOs.Releasing
