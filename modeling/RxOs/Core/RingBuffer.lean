import Mathlib

/-!
# Ring buffers

A buffer of `size` cells with a counter of the values put in and a counter of
the values taken out.  The counters only grow; a value sits in the cell that its
number has modulo the size.
-/

namespace RxOs.RingBuffer

open Function

variable {Value : Type*}

structure Buffer (Value : Type*) where
  data : ℕ → Value
  nread : ℕ
  nwrite : ℕ

def contents (size : ℕ) (buffer : Buffer Value) : List Value :=
  (List.range' buffer.nread (buffer.nwrite - buffer.nread)).map
    fun number => buffer.data (number % size)

def push (size : ℕ) (value : Value) (buffer : Buffer Value) : Buffer Value :=
  { buffer with
    data := update buffer.data (buffer.nwrite % size) value
    nwrite := buffer.nwrite + 1 }

def pop (buffer : Buffer Value) : Buffer Value :=
  { buffer with nread := buffer.nread + 1 }

/-- The counters are in order and at most `size` apart. -/
structure Bounded (size : ℕ) (buffer : Buffer Value) : Prop where
  le : buffer.nread ≤ buffer.nwrite
  room : buffer.nwrite ≤ buffer.nread + size

variable {size : ℕ} {buffer : Buffer Value}

theorem length_contents : (contents size buffer).length = buffer.nwrite - buffer.nread := by
  rw [contents, List.length_map, List.length_range']

theorem Bounded.push (hbounded : Bounded size buffer)
    (hroom : buffer.nwrite ≠ buffer.nread + size) (value : Value) :
    Bounded size (push size value buffer) := by
  have hle := hbounded.le
  have hlast := hbounded.room
  exact ⟨by change buffer.nread ≤ buffer.nwrite + 1; omega,
    by change buffer.nwrite + 1 ≤ buffer.nread + size; omega⟩

theorem Bounded.pop (hbounded : Bounded size buffer)
    (hsome : buffer.nread ≠ buffer.nwrite) : Bounded size (pop buffer) := by
  have hle := hbounded.le
  have hlast := hbounded.room
  exact ⟨by change buffer.nread + 1 ≤ buffer.nwrite; omega,
    by change buffer.nwrite ≤ buffer.nread + 1 + size; omega⟩

/-- Values put in go to the end. -/
theorem contents_push (hbounded : Bounded size buffer)
    (hroom : buffer.nwrite ≠ buffer.nread + size) (value : Value) :
    contents size (push size value buffer) = contents size buffer ++ [value] := by
  obtain ⟨hle, hlast⟩ := hbounded
  have hcount : buffer.nwrite + 1 - buffer.nread = buffer.nwrite - buffer.nread + 1 := by omega
  have hend : buffer.nread + (buffer.nwrite - buffer.nread) = buffer.nwrite := by omega
  change (List.range' buffer.nread (buffer.nwrite + 1 - buffer.nread)).map
    (fun number => update buffer.data (buffer.nwrite % size) value (number % size)) = _
  rw [hcount, List.range'_1_concat, List.map_append, hend, List.map_singleton, update_self]
  congr 1
  apply List.map_congr_left
  intro number hnumber
  rw [List.mem_range'_1] at hnumber
  refine update_of_ne ?_ _ _
  intro hsame
  have hmod : (buffer.nwrite - number) % size = 0 := Nat.sub_mod_eq_zero_of_mod_eq hsame.symm
  have hsmall : buffer.nwrite - number < size := by omega
  rw [Nat.mod_eq_of_lt hsmall] at hmod
  omega

/-- Values taken out come from the front. -/
theorem contents_pop (hbounded : Bounded size buffer) (hsome : buffer.nread ≠ buffer.nwrite) :
    contents size buffer = buffer.data (buffer.nread % size) :: contents size (pop buffer) := by
  have hle := hbounded.le
  have hcount : buffer.nwrite - buffer.nread = buffer.nwrite - (buffer.nread + 1) + 1 := by omega
  rw [contents, hcount, List.range'_succ, List.map_cons]
  rfl

end RxOs.RingBuffer
