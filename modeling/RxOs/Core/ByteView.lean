import Mathlib

/-!
# Fixed-size byte arrays and their little-endian views

A disk block, an inode record and a page are all arrays of bytes of a fixed
length, and kernel code looks at them through casts: as an array of 32-bit
words, as a record of 16-bit and 32-bit fields, or as a plain slice.
-/

namespace RxOs.ByteView

/-- A byte array of a fixed length, indexed from zero. -/
abbrev Bytes (length : ℕ) := Fin length → UInt8

variable {length : ℕ}

/-- The byte at `index`; positions outside the array read as zero. -/
def byteAt (bytes : Bytes length) (index : ℕ) : UInt8 :=
  if h : index < length then bytes ⟨index, h⟩ else 0

theorem byteAt_of_lt (bytes : Bytes length) {index : ℕ} (h : index < length) :
    byteAt bytes index = bytes ⟨index, h⟩ := by simp [byteAt, h]

theorem byteAt_of_le (bytes : Bytes length) {index : ℕ} (h : length ≤ index) :
    byteAt bytes index = 0 := by simp [byteAt, Nat.not_lt.mpr h]

/-! ## Little-endian words -/

/-- Byte `index` of the little-endian representation of `value`. -/
def leByte (value index : ℕ) : UInt8 :=
  UInt8.ofNat (value / 256 ^ index)

@[simp]
theorem toNat_leByte (value index : ℕ) :
    (leByte value index).toNat = value / 256 ^ index % 256 := by simp [leByte]

/-- The 32-bit little-endian word that starts at `offset`. -/
def u32At (bytes : Bytes length) (offset : ℕ) : UInt32 :=
  UInt32.ofNat ((byteAt bytes offset).toNat + 256 * (byteAt bytes (offset + 1)).toNat +
    65536 * (byteAt bytes (offset + 2)).toNat + 16777216 * (byteAt bytes (offset + 3)).toNat)

/-- The 16-bit little-endian word that starts at `offset`. -/
def u16At (bytes : Bytes length) (offset : ℕ) : UInt16 :=
  UInt16.ofNat ((byteAt bytes offset).toNat + 256 * (byteAt bytes (offset + 1)).toNat)

/-- Overwrite `count` consecutive 32-bit words from `offset` on. -/
def writeU32s (bytes : Bytes length) (offset count : ℕ) (words : ℕ → UInt32) : Bytes length :=
  fun index =>
    if offset ≤ index.val ∧ index.val < offset + 4 * count then
      leByte (words ((index.val - offset) / 4)).toNat ((index.val - offset) % 4)
    else bytes index

def writeU32 (bytes : Bytes length) (offset : ℕ) (word : UInt32) : Bytes length :=
  writeU32s bytes offset 1 fun _ => word

def writeU16 (bytes : Bytes length) (offset : ℕ) (word : UInt16) : Bytes length :=
  fun index =>
    if offset ≤ index.val ∧ index.val < offset + 2 then
      leByte word.toNat (index.val - offset)
    else bytes index

theorem byteAt_writeU32s (bytes : Bytes length) (offset count : ℕ)
    (words : ℕ → UInt32) (index : ℕ) :
    byteAt (writeU32s bytes offset count words) index =
      if offset ≤ index ∧ index < offset + 4 * count ∧ index < length then
        leByte (words ((index - offset) / 4)).toNat ((index - offset) % 4)
      else byteAt bytes index := by
  by_cases hindex : index < length
  · simp [byteAt, writeU32s, hindex]
  · simp [byteAt, hindex]

theorem byteAt_writeU16 (bytes : Bytes length) (offset : ℕ) (word : UInt16) (index : ℕ) :
    byteAt (writeU16 bytes offset word) index =
      if offset ≤ index ∧ index < offset + 2 ∧ index < length then
        leByte word.toNat (index - offset)
      else byteAt bytes index := by
  by_cases hindex : index < length
  · simp [byteAt, writeU16, hindex]
  · simp [byteAt, hindex]

/-- The four bytes of a word put together again give the word. -/
private theorem ofNat_leBytes (word : UInt32) :
    UInt32.ofNat ((leByte word.toNat 0).toNat + 256 * (leByte word.toNat 1).toNat +
      65536 * (leByte word.toNat 2).toNat + 16777216 * (leByte word.toNat 3).toNat) = word := by
  apply UInt32.toNat.inj
  have hword : word.toNat < 4294967296 := word.toNat_lt
  simp only [toNat_leByte, UInt32.toNat_ofNat']
  omega

private theorem ofNat_leBytes16 (word : UInt16) :
    UInt16.ofNat ((leByte word.toNat 0).toNat + 256 * (leByte word.toNat 1).toNat) = word := by
  apply UInt16.toNat.inj
  have hword : word.toNat < 65536 := word.toNat_lt
  simp only [toNat_leByte, UInt16.toNat_ofNat']
  omega

/-- A word depends on its four bytes only. -/
theorem u32At_congr {size : ℕ} {left : Bytes length} {right : Bytes size} {offset position : ℕ}
    (hbyte : ∀ lane < 4, byteAt left (offset + lane) = byteAt right (position + lane)) :
    u32At left offset = u32At right position := by
  have hzero := hbyte 0 (by omega)
  rw [Nat.add_zero, Nat.add_zero] at hzero
  rw [u32At, u32At, hzero, hbyte 1 (by omega), hbyte 2 (by omega), hbyte 3 (by omega)]

theorem u16At_congr {size : ℕ} {left : Bytes length} {right : Bytes size} {offset position : ℕ}
    (hbyte : ∀ lane < 2, byteAt left (offset + lane) = byteAt right (position + lane)) :
    u16At left offset = u16At right position := by
  have hzero := hbyte 0 (by omega)
  rw [Nat.add_zero, Nat.add_zero] at hzero
  rw [u16At, u16At, hzero, hbyte 1 (by omega)]

/-- A word written through the 32-bit view is read back through it. -/
theorem u32At_writeU32s (bytes : Bytes length) {offset count : ℕ} (words : ℕ → UInt32) (index : ℕ)
    (hfits : offset + 4 * count ≤ length) (hindex : index < count) :
    u32At (writeU32s bytes offset count words) (offset + 4 * index) = words index := by
  have hbyte : ∀ lane < 4, byteAt (writeU32s bytes offset count words) (offset + 4 * index + lane) =
        leByte (words index).toNat lane := by
    intro lane hlane
    rw [byteAt_writeU32s, if_pos (by omega)]
    have hword : (offset + 4 * index + lane - offset) / 4 = index := by omega
    have hbyte : (offset + 4 * index + lane - offset) % 4 = lane := by omega
    rw [hword, hbyte]
  have hzero := hbyte 0 (by omega)
  rw [Nat.add_zero] at hzero
  rw [u32At, hzero, hbyte 1 (by omega), hbyte 2 (by omega), hbyte 3 (by omega)]
  exact ofNat_leBytes (words index)

theorem u32At_writeU32s_off (bytes : Bytes length) {offset count : ℕ}
    (words : ℕ → UInt32) {position : ℕ}
    (hoff : position + 4 ≤ offset ∨ offset + 4 * count ≤ position) :
    u32At (writeU32s bytes offset count words) position = u32At bytes position := by
  apply u32At_congr
  intro lane hlane
  rw [byteAt_writeU32s, if_neg (by omega)]

theorem u32At_writeU32 (bytes : Bytes length) {offset : ℕ} (word : UInt32)
    (hfits : offset + 4 ≤ length) : u32At (writeU32 bytes offset word) offset = word := by
  exact u32At_writeU32s bytes (fun _ => word) 0 (by omega) (by omega)

theorem u16At_writeU16 (bytes : Bytes length) {offset : ℕ} (word : UInt16)
    (hfits : offset + 2 ≤ length) : u16At (writeU16 bytes offset word) offset = word := by
  have hzero : byteAt (writeU16 bytes offset word) offset = leByte word.toNat 0 := by
    rw [byteAt_writeU16, if_pos (by omega), Nat.sub_self]
  have hone : byteAt (writeU16 bytes offset word) (offset + 1) = leByte word.toNat 1 := by
    rw [byteAt_writeU16, if_pos (by omega), Nat.add_sub_cancel_left]
  rw [u16At, hzero, hone]
  exact ofNat_leBytes16 word

theorem u16At_writeU16_off (bytes : Bytes length) {offset : ℕ} (word : UInt16)
    {position : ℕ} (hoff : position + 2 ≤ offset ∨ offset + 2 ≤ position) :
    u16At (writeU16 bytes offset word) position = u16At bytes position := by
  apply u16At_congr
  intro lane hlane
  rw [byteAt_writeU16, if_neg (by omega)]

theorem u16At_writeU32s_off (bytes : Bytes length) {offset count : ℕ}
    (words : ℕ → UInt32) {position : ℕ}
    (hoff : position + 2 ≤ offset ∨ offset + 4 * count ≤ position) :
    u16At (writeU32s bytes offset count words) position = u16At bytes position := by
  apply u16At_congr
  intro lane hlane
  rw [byteAt_writeU32s, if_neg (by omega)]

/-! ## Bits -/

/-- Bit `index` of the array, counted from the low end of each byte. -/
def bitAt (bytes : Bytes length) (index : ℕ) : Bool :=
  (byteAt bytes (index / 8)).toNat.testBit (index % 8)

def setBit (bytes : Bytes length) (index : ℕ) : Bytes length :=
  fun position =>
    if position.val = index / 8 then
      bytes position ||| (1 <<< UInt8.ofNat (index % 8))
    else bytes position

def clearBit (bytes : Bytes length) (index : ℕ) : Bytes length :=
  fun position =>
    if position.val = index / 8 then
      bytes position &&& ~~~(1 <<< UInt8.ofNat (index % 8))
    else bytes position

private theorem toNat_mask {lane : ℕ} (hlane : lane < 8) :
    ((1 : UInt8) <<< UInt8.ofNat lane).toNat = 2 ^ lane := by interval_cases lane <;> rfl

private theorem byteAt_edit (bytes : Bytes length) (edit : UInt8 → UInt8)
    {index : ℕ} (hindex : index < length) (other : ℕ) :
    byteAt (fun position => if position.val = index then edit (bytes position)
      else bytes position) other =
      if other = index then edit (byteAt bytes other) else byteAt bytes other := by
  by_cases hother : other < length
  · rw [byteAt_of_lt _ hother, byteAt_of_lt _ hother]
  · rw [byteAt_of_le _ (by omega), byteAt_of_le _ (by omega), if_neg (by omega)]

/-- Setting a bit changes that bit only. -/
theorem bitAt_setBit (bytes : Bytes length) {index : ℕ} (hindex : index < 8 * length) (other : ℕ) :
    bitAt (setBit bytes index) other = (decide (other = index) || bitAt bytes other) := by
  have hlane : index % 8 < 8 := Nat.mod_lt _ (by omega)
  have hbyte : index / 8 < length := by omega
  have hedit : byteAt (setBit bytes index) (other / 8) = _ :=
    byteAt_edit bytes (· ||| (1 <<< UInt8.ofNat (index % 8))) hbyte (other / 8)
  rw [bitAt, hedit]
  by_cases hsame : other / 8 = index / 8
  · have hlanes : index % 8 = other % 8 ↔ other = index := by omega
    simp [hsame, bitAt, UInt8.toNat_or, toNat_mask hlane, Nat.testBit_or,
      Nat.testBit_two_pow, hlanes, Bool.or_comm]
  · have hne : other ≠ index := fun heq => hsame (heq ▸ rfl)
    simp [hsame, bitAt, hne]

/-! ## Slices -/

/-- Overwrite the bytes from `offset` on by `data`. -/
def splice (bytes : Bytes length) (offset : ℕ) (data : List UInt8) : Bytes length :=
  fun index =>
    if offset ≤ index.val ∧ index.val < offset + data.length then
      data.getD (index.val - offset) 0
    else bytes index

/-- The `count` bytes from `offset` on. -/
def slice (bytes : Bytes length) (offset count : ℕ) : List UInt8 :=
  (List.range count).map fun index => byteAt bytes (offset + index)

theorem byteAt_splice (bytes : Bytes length) (offset : ℕ) (data : List UInt8) (index : ℕ) :
    byteAt (splice bytes offset data) index =
      if offset ≤ index ∧ index < offset + data.length ∧ index < length then
        data.getD (index - offset) 0
      else byteAt bytes index := by
  by_cases hindex : index < length
  · simp [byteAt, splice, hindex]
  · simp [byteAt, hindex]

@[simp]
theorem length_slice (bytes : Bytes length) (offset count : ℕ) :
    (slice bytes offset count).length = count := by simp [slice]

end RxOs.ByteView
