import Mathlib

/-!
# Rings with wrapping indices

Values stored in consecutive cells of a ring, from an index on that wraps around
at a power of two.  The number of cells divides that power, so the cell of an
index follows the index around.
-/

namespace RxOs.WrappingRing

open Function

variable {Value : Type*} {width size : ℕ}

def cell (size : ℕ) (index : BitVec width) : ℕ := index.toNat % size

theorem cell_add (hsize : size ∣ 2 ^ width) (index : BitVec width) (n : ℕ) :
    cell size (index + BitVec.ofNat width n) = (index.toNat + n) % size := by
  rw [cell, BitVec.toNat_add, BitVec.toNat_ofNat, Nat.add_mod_mod, Nat.mod_mod_of_dvd _ hsize]

/-- The values stand in the cells from `start` on. -/
def Stored (size : ℕ) (data : ℕ → Value) (start : BitVec width) (values : List Value) : Prop :=
  ∀ n < values.length, values[n]? = some (data ((start.toNat + n) % size))

variable {data : ℕ → Value} {start : BitVec width} {value : Value} {values more : List Value}

theorem stored_nil : Stored size data start ([] : List Value) := nofun

theorem Stored.of_append (hstored : Stored size data start (values ++ more)) :
    Stored size data start values := by
  intro n hn
  rw [← hstored n (by rw [List.length_append]; omega), List.getElem?_append_left hn]

/-- Store a value behind the others, in a ring that is not full. -/
theorem Stored.push (hstored : Stored size data start values)
    (hroom : values.length < size) (value : Value) :
    Stored size (update data ((start.toNat + values.length) % size) value)
      start (values ++ [value]) := by
  intro n hn
  rw [List.length_append, List.length_singleton] at hn
  by_cases hlast : n = values.length
  · rw [hlast, update_self, List.getElem?_concat_length]
  · have hbefore : n < values.length := by omega
    rw [List.getElem?_append_left hbefore, hstored n hbefore, update_of_ne]
    intro hsame
    have hmod : (start.toNat + values.length - (start.toNat + n)) % size = 0 :=
      Nat.sub_mod_eq_zero_of_mod_eq hsame.symm
    rw [Nat.mod_eq_of_lt (by omega)] at hmod
    omega

/-- The first value, and the others from the next index on. -/
theorem Stored.pop (hsize : size ∣ 2 ^ width) (hstored : Stored size data start (value :: values)) :
    data (cell size start) = value ∧ Stored size data (start + 1) values := by
  constructor
  · have hfirst := hstored 0 (Nat.succ_pos _)
    rw [List.getElem?_cons_zero, Nat.add_zero] at hfirst
    exact (Option.some.inj hfirst).symm
  · intro n hn
    have hcell : ((start + 1).toNat + n) % size = (start.toNat + (n + 1)) % size := by
      rw [Nat.add_mod, show (start + 1).toNat % size = (start.toNat + 1) % size
        from cell_add hsize start 1, ← Nat.add_mod]
      congr 1
      omega
    rw [hcell, ← hstored (n + 1) (Nat.succ_lt_succ hn)]
    rfl

/-! ## Indices a given number of cells apart -/

variable {count : ℕ}

theorem add_eq_self_iff (hcount : count < 2 ^ width) (index : BitVec width) :
    index = index + BitVec.ofNat width count ↔ count = 0 := by
  constructor
  · intro hsame
    have hzero : BitVec.ofNat width count = BitVec.ofNat width 0 := by
      have hcancel : index + BitVec.ofNat width count = index + BitVec.ofNat width 0 := by
        rw [BitVec.add_zero, ← hsame]
      exact (BitVec.add_right_inj index).mp hcancel
    have hnat := congrArg BitVec.toNat hzero
    rwa [BitVec.toNat_ofNat, BitVec.toNat_zero, Nat.mod_eq_of_lt hcount] at hnat
  · rintro rfl
    exact (BitVec.add_zero index).symm

theorem toNat_add_sub (hcount : count < 2 ^ width) (index : BitVec width) :
    (index + BitVec.ofNat width count - index).toNat = count := by
  rw [BitVec.add_comm, BitVec.add_sub_cancel, BitVec.toNat_ofNat, Nat.mod_eq_of_lt hcount]

theorem add_ofNat (index : BitVec width) (count further : ℕ) :
    index + BitVec.ofNat width count + BitVec.ofNat width further =
      index + BitVec.ofNat width (count + further) := by rw [BitVec.add_assoc, BitVec.ofNat_add]

theorem add_ofNat_succ_sub (index : BitVec width) (count : ℕ) :
    index + BitVec.ofNat width (count + 1) - 1 = index + BitVec.ofNat width count := by
  rw [← add_ofNat]
  exact BitVec.add_sub_cancel _ _

theorem Stored.at {n : ℕ} (hsize : size ∣ 2 ^ width)
    (hstored : Stored size data start values) (hn : n < values.length) :
    values[n]? = some (data (cell size (start + BitVec.ofNat width n))) := by
  rw [cell_add hsize]
  exact hstored n hn

end RxOs.WrappingRing
