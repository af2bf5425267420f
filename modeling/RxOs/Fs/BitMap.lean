import RxOs.Fs.Blocks

/-!
# The free-block bitmap

`BitMap::alloc` scans the bitmap blocks one after the other for the first clear
bit below the size of the file system.
-/

namespace RxOs.BitMap

open Function ByteView Exec Params Blocks

/-- The order of the areas on a volume, as the image builder lays them out:
log, inode table, bitmap, data. -/
structure Layout (sb : SuperBlock) : Prop where
  size_pos : 0 < sb.size
  log_end : sb.logstart + sb.nlog ≤ sb.inodestart
  table_le : sb.inodestart ≤ sb.bmapstart
  inodes_end : ∀ inum < sb.ninodes, inum / ipb + sb.inodestart < sb.bmapstart
  bitmap_end : ∀ blockno < sb.size, sb.locateBmp blockno < sb.size
  size_lt : sb.size < 4294967296

/-- The loop of `BitMap::alloc` over the bitmap blocks; `b` is the first block
number that the next bitmap block stands for. -/
def allocFrom : (remaining b : ℕ) → FsM UInt32
  | 0, _ => throw (.panic .bitmapOutOfBlocks)
  | remaining + 1, b => do
    let sb := (← get).sb
    let buf ← bread (sb.locateBmp b)
    match (List.range (min bpb (sb.size - b))).find? (!bitAt buf ·) with
    | some i =>
      logWrite (.ofNat (sb.locateBmp b)) (setBit buf i)
      return .ofNat (b + i)
    | none => allocFrom remaining (b + bpb)

def alloc : FsM UInt32 := do
  allocFrom (((← get).sb.size + bpb - 1) / bpb) 0

def free (blockno : UInt32) : FsM Unit := do
  let bmBlockno := (← get).sb.bmapstart
  let bmOffset := blockno.toNat % bpb
  let buf ← bread bmBlockno
  if !bitAt buf bmOffset then throw (.panic .bitmapDoubleFree)
  logWrite (.ofNat bmBlockno) (clearBit buf bmOffset)

/-! ## Allocation -/

/-- The least unmarked block has been marked, and nothing else changed. -/
structure Allocated (blockno : UInt32) (vol next : Volume) : Prop where
  lt_size : blockno.toNat < vol.sb.size
  free : vol.marked blockno.toNat = false
  least : ∀ smaller < blockno.toNat, vol.marked smaller = true
  wrote : Wrote (.ofNat (vol.sb.locateBmp blockno.toNat))
    (setBit (vol.block (vol.sb.locateBmp blockno.toNat)) (blockno.toNat % bpb)) vol next

def BitmapFull (cause : Stop) (vol : Volume) : Prop :=
  cause = .panic .bitmapOutOfBlocks ∧ ∀ blockno < vol.sb.size, vol.marked blockno = true

def Exhausted (cause : Stop) (vol : Volume) : Prop :=
  BitmapFull cause vol ∨ LogFull cause vol

theorem Exhausted.of_halts {cause : Stop} {vol next : Volume}
    (hexhausted : Exhausted cause vol) (hhalts : Halts vol next) : Exhausted cause next := by
  unfold Exhausted BitmapFull LogFull Volume.marked Volume.block
  rw [hhalts.sb_eq, hhalts.logged_eq]
  exact hexhausted

section Alloc

variable {vol next : Volume}

/-- Position `i` of the bitmap block that starts at `b`. -/
theorem marked_add {b i : ℕ} (halign : b % bpb = 0) (hi : i < bpb) :
    vol.marked (b + i) = bitAt (vol.block (vol.sb.locateBmp b)) i := by
  have hdiv : (b + i) / bpb = b / bpb := by
    rw [Nat.add_div_of_dvd_right (Nat.dvd_of_mod_eq_zero halign), Nat.div_eq_of_lt hi, Nat.add_zero]
  have hmod : (b + i) % bpb = i := by
    rw [Nat.add_mod, halign, Nat.zero_add, Nat.mod_mod, Nat.mod_eq_of_lt hi]
  rw [Volume.marked, SuperBlock.locateBmp, hdiv, hmod]
  rfl

theorem toNat_ofNat_of_lt {value : ℕ} (hvalue : value < 4294967296) :
    (UInt32.ofNat value).toNat = value := by
  rw [UInt32.toNat_ofNat']
  exact Nat.mod_eq_of_lt hvalue

theorem ensures_allocFrom (hlayout : Layout vol.sb) (remaining b : ℕ)
    (halign : b % bpb = 0) (hcover : vol.sb.size ≤ b + remaining * bpb)
    (hbelow : ∀ smaller < b, smaller < vol.sb.size → vol.marked smaller = true) :
    Ensures (allocFrom remaining b) vol (fun found => Allocated found vol)
      (fun cause next => (Exhausted cause vol ∨ NotRecording cause vol) ∧ Halts vol next) := by
  induction remaining generalizing b with
  | zero =>
    refine ⟨.inl (.inl ⟨rfl, ?_⟩), rfl, rfl⟩
    intro blockno hblockno
    exact hbelow blockno (by omega) hblockno
  | succ remaining ih =>
    rw [allocFrom]
    simp only [ensures_bind, ensures_get, ensures_bread]
    split
    · next i hfind =>
        have hi := List.mem_range.mp (List.mem_of_find?_eq_some hfind)
        have hclear := List.find?_some hfind
        have hbpb : i < bpb := by omega
        have hsize : b + i < vol.sb.size := by omega
        have hnumber : (UInt32.ofNat (b + i)).toNat = b + i :=
          toNat_ofNat_of_lt (by have := hlayout.size_lt; omega)
        have hplace : vol.sb.locateBmp (b + i) = vol.sb.locateBmp b := by
          rw [SuperBlock.locateBmp, SuperBlock.locateBmp,
            Nat.add_div_of_dvd_right (Nat.dvd_of_mod_eq_zero halign),
            Nat.div_eq_of_lt hbpb, Nat.add_zero]
        have hmod : (b + i) % bpb = i := by
          rw [Nat.add_mod, halign, Nat.zero_add, Nat.mod_mod, Nat.mod_eq_of_lt hbpb]
        refine ensures_bind.mpr ?_
        refine (ensures_logWrite_any _ _).imp ?_ fun _ _ hstop => ⟨hstop.1.imp_left .inr, hstop.2⟩
        intro _ final hwrote
        refine ⟨?_, ?_, ?_, ?_⟩
        · rw [hnumber]
          exact hsize
        · rw [hnumber, marked_add halign hbpb]
          simpa using hclear
        · rw [hnumber]
          intro smaller hsmaller
          by_cases hlt : smaller < b
          · exact hbelow smaller hlt (by omega)
          · obtain ⟨j, rfl⟩ := Nat.exists_eq_add_of_le (Nat.not_lt.mp hlt)
            rw [marked_add halign (by omega)]
            have hbit := List.find?_range_eq_some.mp hfind
            simpa using hbit.2.2 j (by omega)
        · rw [hnumber, hplace, hmod]
          exact hwrote
    · next hfind =>
        apply ih
        · rw [Nat.add_mod_right]
          exact halign
        · rw [Nat.add_mul, Nat.one_mul] at hcover
          omega
        · intro smaller hsmaller hsize
          by_cases hlt : smaller < b
          · exact hbelow smaller hlt hsize
          · obtain ⟨j, rfl⟩ := Nat.exists_eq_add_of_le (Nat.not_lt.mp hlt)
            rw [marked_add halign (by omega)]
            have hbit := List.find?_eq_none.mp hfind j (List.mem_range.mpr (by omega))
            simpa using hbit

/-- `BitMap::alloc` takes the least unmarked block, or the volume has run out,
or no operation is open. -/
theorem ensures_alloc_any (hlayout : Layout vol.sb) :
    Ensures alloc vol (fun found => Allocated found vol)
      (fun cause next => (Exhausted cause vol ∨ NotRecording cause vol) ∧ Halts vol next) := by
  rw [alloc]
  simp only [ensures_bind, ensures_get]
  apply ensures_allocFrom hlayout _ _ (Nat.zero_mod _)
  · rw [Nat.zero_add]
    have hbpb : bpb = 8192 := rfl
    rw [hbpb]
    omega
  · intro smaller hsmaller
    omega

theorem ensures_alloc (hlayout : Layout vol.sb) (hopen : 0 < vol.logged.log.outstanding) :
    Ensures alloc vol (fun found => Allocated found vol)
      (fun cause next => Exhausted cause vol ∧ Halts vol next) := by
  refine (ensures_alloc_any hlayout).imp (fun _ _ h => h) ?_
  rintro cause next ⟨hexhausted | hclosed, hhalts⟩
  · exact ⟨hexhausted, hhalts⟩
  · have := hclosed.2
    omega

end Alloc

/-! ## Blocks in use -/

def bitmapBlocks (sb : SuperBlock) : Set ℕ :=
  { place | ∃ blockno < sb.size, sb.locateBmp blockno = place }

def InUse (vol : Volume) (blockno : ℕ) : Prop :=
  vol.sb.locateBmp blockno ∈ bitmapBlocks vol.sb ∧ vol.marked blockno = true

section InUse

variable {vol next : Volume} {blockno : UInt32}

theorem inUse_of_changes {touched : Set ℕ} (hchanges : Changes touched vol next)
    (hdisjoint : ∀ place ∈ bitmapBlocks vol.sb, place ∉ touched) (other : ℕ) :
    InUse next other ↔ InUse vol other := by
  unfold InUse Volume.marked
  rw [hchanges.sb_eq]
  refine and_congr_right fun hplace => ?_
  rw [hchanges.block_eq _ (hdisjoint _ hplace)]

theorem Allocated.toNat_place (hlayout : Layout vol.sb) (hallocated : Allocated blockno vol next) :
    (UInt32.ofNat (vol.sb.locateBmp blockno.toNat)).toNat = vol.sb.locateBmp blockno.toNat := by
  have hplace := hlayout.bitmap_end _ hallocated.lt_size
  have hsize := hlayout.size_lt
  exact toNat_ofNat_of_lt (by omega)

theorem Allocated.changes (hlayout : Layout vol.sb) (hallocated : Allocated blockno vol next) :
    Changes (bitmapBlocks vol.sb) vol next := by
  refine hallocated.wrote.changes.mono ?_
  rw [Set.singleton_subset_iff, hallocated.toNat_place hlayout]
  exact ⟨_, hallocated.lt_size, rfl⟩

/-- Allocation puts the block it returns in use, and no other. -/
theorem Allocated.inUse_iff (hlayout : Layout vol.sb)
    (hallocated : Allocated blockno vol next) (other : ℕ) :
    InUse next other ↔ other = blockno.toNat ∨ InUse vol other := by
  have hbits : blockno.toNat % bpb < 8 * bsize := Nat.mod_lt _ (by decide)
  have hblock : next.block = update vol.block (vol.sb.locateBmp blockno.toNat)
      (setBit (vol.block (vol.sb.locateBmp blockno.toNat)) (blockno.toNat % bpb)) := by
    rw [hallocated.wrote.block_eq, hallocated.toNat_place hlayout]
  by_cases hplace : vol.sb.locateBmp other = vol.sb.locateBmp blockno.toNat
  · have hdiv : other / bpb = blockno.toNat / bpb := by
      simp only [SuperBlock.locateBmp] at hplace
      omega
    have hequal : other % bpb = blockno.toNat % bpb ↔ other = blockno.toNat := by
      constructor
      · intro hmod
        rw [← Nat.div_add_mod other bpb, hdiv, hmod, Nat.div_add_mod]
      · rintro rfl
        rfl
    have hmem : vol.sb.locateBmp blockno.toNat ∈ bitmapBlocks vol.sb := ⟨_, hallocated.lt_size, rfl⟩
    simp only [InUse, Volume.marked, hallocated.wrote.sb_eq, hblock, hplace,
      update_self, bitAt_setBit _ hbits, hequal, Bool.or_eq_true,
      decide_eq_true_eq, hmem, true_and]
  · have hne : other ≠ blockno.toNat := fun heq => hplace (heq ▸ rfl)
    simp only [InUse, Volume.marked, hallocated.wrote.sb_eq, hblock,
      update_of_ne hplace, hne, false_or]

theorem Allocated.not_inUse (hallocated : Allocated blockno vol next) :
    ¬InUse vol blockno.toNat := by
  intro hinUse
  rw [InUse, hallocated.free] at hinUse
  exact absurd hinUse.2 (by simp)

end InUse

/-! ## A small volume -/

/-- Sixty-four blocks, laid out as the image builder would do it. -/
def sampleSb : SuperBlock where
  size := 64
  ninodes := 16
  nlog := 30
  logstart := 2
  inodestart := 32
  bmapstart := 33

/-- The first forty blocks are in use, everything else is zero and one
operation is open. -/
def sampleVolume : Volume where
  sb := sampleSb
  logged :=
    { log :=
        { start := 2
          size := 30
          outstanding := 1
          commiting := false
          lh := { len := 0, blocknos := fun _ => 0 } }
      bufs := Buffers.BufferedDisk.boot fun blockno index =>
        if blockno = 33 ∧ index.val < 5 then 255 else 0 }
  events := []

theorem layout_sampleSb : Layout sampleSb where
  size_pos := by decide
  log_end := by decide
  table_le := by decide
  inodes_end := by decide
  bitmap_end := by decide
  size_lt := by decide

theorem mem_bitmapBlocks_sampleSb {place : ℕ} : place ∈ bitmapBlocks sampleSb ↔ place = 33 := by
  constructor
  · rintro ⟨blockno, hblockno, rfl⟩
    have hall : ∀ other < sampleSb.size, sampleSb.locateBmp other = 33 := by decide
    exact hall blockno hblockno
  · rintro rfl
    exact ⟨0, by decide, rfl⟩

theorem inUse_sampleVolume {blockno : ℕ} (hblockno : blockno < 40) :
    InUse sampleVolume blockno := by
  have hmarked : ∀ other < 40, sampleVolume.marked other = true := by decide +kernel
  have hplace : ∀ other < 40, sampleSb.locateBmp other = 33 := by decide
  refine ⟨?_, hmarked blockno hblockno⟩
  exact mem_bitmapBlocks_sampleSb.mpr (hplace blockno hblockno)

end RxOs.BitMap
