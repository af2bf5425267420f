import RxOs.Syscall.DirectoryMap
import RxOs.Syscall.PathWalk

/-!
# Names as long as the name field

The name field of a directory entry has fourteen bytes, and a name of fourteen
bytes fills it without a zero.  `skip_path` keeps one byte of its buffer for the
zero and asserts that the component is shorter than the buffer.  So look-ups and
links serve a component exactly if it has at most thirteen bytes; at a longer one
every path that contains it stops the kernel.
-/

namespace RxOs.NameLength

open Exec SlotTable Params BitMap Inode Kernel FileRefinement FileTable
open Operations Directory RxOs.Sequential DirectoryMap PathWalk

/-- Some bytes, none of them `/` or zero. -/
def IsComponent (component : List UInt8) : Prop :=
  component ≠ [] ∧ ∀ byte ∈ component, isName byte = true

/-- What the directory methods should make of a name buffer with a component in
it.  A directory knows the component by its first fourteen bytes. -/
structure Serves (component buffer : List UInt8) : Prop where
  /-- The entry that holds the name, padded with zeros, is a row for it. -/
  held : ∀ inum : UInt32, inum ≠ 0 → inum.toNat < 65536 →
    decodeEntry (encodeEntry inum (component.take dirsiz)) = some (component.take dirsiz, inum)
  /-- A look-up finds the first row with the name. -/
  found : ∀ (proc : Proc) (kernel : KernelState) (dir : Handle),
    OpenDir kernel dir → execute proc (dirLookup dir buffer) kernel =
      search (lookup (tableOf kernel.vol dir.inum.toNat) (component.take dirsiz)) kernel
  /-- An entry with another name does not match. -/
  apart : ∀ (inum : UInt32) (other : List UInt8), 0 ∉ other →
    other.length ≤ dirsiz → other ≠ component.take dirsiz →
    sameName buffer (entryName (encodeEntry inum other)) = false
  /-- After a new name was linked to an inode, a look-up finds this inode. -/
  linked : ∀ (proc : Proc) (kernel : KernelState) (dir : Handle)
    (inum : UInt32), OpenDir kernel dir → 0 < kernel.outstanding →
    lookup (tableOf kernel.vol dir.inum.toNat) (component.take dirsiz) = none →
    InRange dir kernel → inum ≠ 0 → inum.toNat < 65536 →
    Ensures (execute proc (dirLink dir buffer inum)) kernel (fun result next => result = .ok () ∧
        execute proc (dirLookup dir buffer) next = search (some inum) next)
      (fun cause next => Exhausted cause next.vol)

/-- Wherever a path has the component, `skip_path` goes behind it and leaves a
buffer that serves it. -/
def PassesThrough (component : List UInt8) : Prop :=
  ∀ (path : List UInt8) (cur : ℕ) (name : List UInt8)
    (rest : List (List UInt8)), name.length = dirsiz → 0 ∈ path.drop cur →
    components (path.drop cur) = component :: rest →
    ∃ next buffer, skipPath path cur name = .ok (next, buffer) ∧
      components (path.drop next) = rest ∧ Serves component buffer

section Buffer

variable {component buffer : List UInt8}

theorem cName_stale (hzero : 0 ∉ component) (stale : List UInt8) :
    cName (component ++ 0 :: stale) = component := by
  have hkeep : ∀ byte ∈ component, decide (byte ≠ 0) = true :=
    fun byte hbyte => decide_eq_true fun heq => hzero (heq ▸ hbyte)
  rw [cName, List.takeWhile_append_of_pos hkeep]
  simp

/-- A buffer with the whole component and its zero serves the component. -/
theorem serves_of_cName (hzero : 0 ∉ component)
    (hterminated : Terminated buffer) (hname : cName buffer = component) :
    Serves component buffer := by
  have hshort : component.length < dirsiz := by
    rw [← hname]
    exact (length_cName_lt hterminated.zero_mem).trans_le hterminated.length_le
  have htake : component.take dirsiz = component := List.take_of_length_le hshort.le
  rw [← cName_eq_self hzero] at hname
  refine ⟨?_, ?_, ?_, ?_⟩ <;> rw [htake]
  · intro inum hnonzero hinum
    rw [decodeEntry_encodeEntry component hinum hnonzero, cName_eq_self hzero]
  · intro proc kernel dir hdir
    rw [execute_dirLookup hdir hterminated, hname, cName_eq_self hzero]
  · intro inum other hother _ hne
    rw [Bool.eq_false_iff]
    intro hsame
    obtain ⟨-, -, heq⟩ := (sameName_iff _ _).mp hsame
    rw [entryName_encodeEntry, cName_append_replicate, cName_eq_self hother,
      hname, cName_eq_self hzero] at heq
    exact hne heq.symm
  · intro proc kernel dir inum hdir hopen habsent hroom hnonzero hinum
    have hlength := length_encodeEntry inum hterminated.length_le
    have hslot : linkSlot (tableOf kernel.vol dir.inum.toNat) ≤ (entriesOf kernel dir).length :=
      (linkSlot_le _).trans_eq (List.length_map _)
    apply (ensures_dirLink hdir hopen hterminated.length_le inum hroom).imp_returned
    rintro _ next ⟨rfl, hwritten⟩
    refine ⟨rfl, ?_⟩
    rw [execute_dirLookup (hwritten.openDir hdir hlength hroom) hterminated,
      hwritten.tableOf_eq hdir hlength hslot, decodeEntry_encodeEntry buffer hinum hnonzero, hname,
      cName_eq_self hzero, lookup_place _ inum habsent]

end Buffer

section Component

variable {component : List UInt8}

theorem passesThrough_of_length_lt (hshort : component.length < dirsiz) :
    PassesThrough component := by
  intro path cur name rest hname hzero hcomponents
  obtain ⟨next, hskip, -, -, -, hclean, hrest, -⟩ := skipPath_cons hzero hcomponents hshort name
  have hterminated : Terminated (component ++ 0 :: name.drop (component.length + 1)) := by
    refine ⟨?_, List.mem_append_right _ List.mem_cons_self⟩
    rw [List.length_append, List.length_cons, List.length_drop, hname]
    omega
  exact ⟨next, _, hskip, hrest, serves_of_cName hclean hterminated (cName_stale hclean _)⟩

theorem components_alone (hcomponent : IsComponent component) :
    components (component ++ [0]) = [component] := by
  obtain ⟨hnonempty, hnames⟩ := hcomponent
  cases component with
  | nil => exact absurd rfl hnonempty
  | cons byte component =>
    rw [List.cons_append, components_name _ (hnames byte List.mem_cons_self), ← List.cons_append,
      List.takeWhile_append_of_pos hnames, List.dropWhile_append_of_pos hnames,
      List.takeWhile_cons_of_neg (by decide),
      List.dropWhile_cons_of_neg (by decide), components_zero, List.append_nil]

/-- At a component without room for its zero the assertion fails. -/
theorem length_lt_of_passesThrough (hcomponent : IsComponent component)
    (hpasses : PassesThrough component) : component.length < dirsiz := by
  by_contra hlong
  have hzero : 0 ∈ (component ++ [0]).drop 0 := List.mem_append_right _ List.mem_cons_self
  have hcomponents := components_alone hcomponent
  obtain ⟨_, _, hok, -⟩ := hpasses _ 0 (List.replicate dirsiz 0) []
    List.length_replicate hzero hcomponents
  obtain ⟨_, hskip, -⟩ := skipPath_component hzero hcomponents (List.replicate dirsiz 0)
  rw [if_pos (Nat.not_lt.mp hlong), hok] at hskip
  cases hskip

theorem isComponent_replicate (count : ℕ) : IsComponent (List.replicate (count + 1) 97) := by
  refine ⟨List.cons_ne_nil _ _, fun byte hbyte => ?_⟩
  rw [List.eq_of_mem_replicate hbyte]
  rfl

end Component

/-- Exactly the components with at most thirteen bytes are served. -/
theorem passesThrough_iff {component : List UInt8} (hcomponent : IsComponent component) :
    PassesThrough component ↔ component.length < dirsiz :=
  ⟨length_lt_of_passesThrough hcomponent, passesThrough_of_length_lt⟩

/-- The longest name that is served. -/
theorem passesThrough_iff_thirteen :
    IsComponent (List.replicate 13 97) ∧ PassesThrough (List.replicate 13 97) := by
  have hcomponent := isComponent_replicate 12
  exact ⟨hcomponent, (passesThrough_iff hcomponent).mpr (by decide)⟩

/-- A name of fourteen bytes fits the name field but not the buffer. -/
theorem not_passesThrough :
    ¬∀ component, IsComponent component → component.length ≤ dirsiz → PassesThrough component := by
  intro hall
  have hcomponent := isComponent_replicate 13
  have hshort := length_lt_of_passesThrough hcomponent (hall _ hcomponent (by decide))
  exact absurd hshort (by decide)

end RxOs.NameLength
