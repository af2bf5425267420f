import Mathlib

/-!
# Tables with free slots

A finite map stored as a list of slots, each of them free or filled with a key
and its value.  The first slot with a key wins.  Filling a free slot, or a new
one at the end, adds one row and changes nothing else; filling a slot that is
taken loses the row it held.
-/

namespace RxOs.SlotTable

variable {Key Value : Type*}

abbrev Table (Key Value : Type*) := List (Option (Key × Value))

def rows (table : Table Key Value) : List (Key × Value) :=
  table.reduceOption

def place (table : Table Key Value) (index : ℕ) (row : Option (Key × Value)) : Table Key Value :=
  table.take index ++ row :: table.drop (index + 1)

theorem rows_append (left right : Table Key Value) :
    rows (left ++ right) = rows left ++ rows right :=
  List.reduceOption_append left right

@[simp]
theorem rows_cons_some (row : Key × Value) (table : Table Key Value) :
    rows (some row :: table) = row :: rows table :=
  List.reduceOption_cons_of_some row table

@[simp]
theorem rows_cons_none (table : Table Key Value) : rows (none :: table) = rows table :=
  List.reduceOption_cons_of_none table

/-- The slot at `index` holds no row. -/
def FreeAt (table : Table Key Value) (index : ℕ) : Prop :=
  ∀ row, table[index]? ≠ some (some row)

/-- The rows behind a free slot are those from the slot on. -/
theorem rows_drop_succ {table : Table Key Value} {index : ℕ} (hfree : FreeAt table index) :
    rows (table.drop (index + 1)) = rows (table.drop index) := by
  by_cases hindex : index < table.length
  · rw [List.drop_eq_getElem_cons hindex]
    cases hslot : table[index] with
    | none => rw [rows_cons_none]
    | some row => exact absurd (by rw [List.getElem?_eq_getElem hindex, hslot]) (hfree row)
  · rw [List.drop_of_length_le (by omega), List.drop_of_length_le (by omega)]

theorem rows_take_append_drop (table : Table Key Value) (index : ℕ) :
    rows (table.take index) ++ rows (table.drop index) = rows table := by
  rw [← rows_append, List.take_append_drop]

theorem rows_place {table : Table Key Value} {index : ℕ}
    (hfree : FreeAt table index) (row : Key × Value) :
    rows (place table index (some row)) =
      rows (table.take index) ++ row :: rows (table.drop index) := by
  rw [place, rows_append, rows_cons_some, rows_drop_succ hfree]

theorem length_rows_place {table : Table Key Value} {index : ℕ}
    {old : Key × Value} (htaken : table[index]? = some (some old)) (row : Key × Value) :
    (rows (place table index (some row))).length = (rows table).length := by
  obtain ⟨hindex, hslot⟩ := List.getElem?_eq_some_iff.mp htaken
  rw [place, rows_append, rows_cons_some, ← rows_take_append_drop table index,
    List.drop_eq_getElem_cons hindex, hslot, rows_cons_some, List.length_append,
    List.length_append, List.length_cons, List.length_cons]

/-! ## Looking up a key -/

variable [DecidableEq Key]

def lookup (table : Table Key Value) (key : Key) : Option Value :=
  (rows table).lookup key

theorem lookup_cons_self (key : Key) (value : Value) (table : Table Key Value) :
    lookup (some (key, value) :: table) key = some value := by
  rw [lookup, rows_cons_some, List.lookup_cons_self]

theorem lookup_cons_of_ne {slot : Option (Key × Value)} {key : Key}
    (hslot : ∀ value, slot ≠ some (key, value)) (table : Table Key Value) :
    lookup (slot :: table) key = lookup table key := by
  match slot with
  | none => rw [lookup, rows_cons_none, lookup]
  | some (other, value) =>
    have hkey : (key == other) = false := by
      rw [beq_eq_false_iff_ne]
      rintro rfl
      exact hslot value rfl
    rw [lookup, rows_cons_some, List.lookup_cons, hkey, lookup]

/-- A new key is found in the slot that is filled with it, whatever the slot
held. -/
theorem lookup_place {table : Table Key Value} {key : Key} (index : ℕ)
    (value : Value) (habsent : lookup table key = none) :
    lookup (place table index (some (key, value))) key = some value := by
  have hbefore : (rows (table.take index)).lookup key = none := by
    rw [lookup, ← rows_take_append_drop table index, List.lookup_append,
      Option.or_eq_none_iff] at habsent
    exact habsent.1
  rw [lookup, place, rows_append, rows_cons_some, List.lookup_append, hbefore,
    Option.none_or, List.lookup_cons_self]

/-- The table `after` is `before` with one more row. -/
structure Extended (before after : Table Key Value) (key : Key)
    (value : Value) : Prop where
  found : lookup after key = some value
  kept : ∀ other, other ≠ key → lookup after other = lookup before other
  rows_perm : (rows after).Perm ((key, value) :: rows before)

/-- Filling a slot with a new key extends the table exactly when the slot was
free. -/
theorem extended_place_iff {table : Table Key Value} {index : ℕ} {key : Key}
    (value : Value) (habsent : lookup table key = none) :
    Extended table (place table index (some (key, value))) key value ↔ FreeAt table index := by
  constructor
  · intro hextended row htaken
    have hperm := hextended.rows_perm.length_eq
    rw [length_rows_place htaken, List.length_cons] at hperm
    omega
  · intro hfree
    have hrows := rows_place hfree (key, value)
    have hsplit := rows_take_append_drop table index
    refine ⟨lookup_place index value habsent, ?_, ?_⟩
    · intro other hother
      have hkey : (other == key) = false := beq_eq_false_iff_ne.mpr hother
      rw [lookup, lookup, hrows, ← hsplit, List.lookup_append,
        List.lookup_append, List.lookup_cons, hkey]
    · rw [hrows, ← hsplit]
      exact List.perm_middle

end RxOs.SlotTable
