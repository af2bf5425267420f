import RxOs.Core.SlotTable
import RxOs.Core.Transition
import RxOs.Fs.FileTable
import RxOs.Syscall.Sequential

/-!
# Directories as maps from names to inodes

The bytes of a directory are records of sixteen bytes, and the records are the
slots of a table from names to inode numbers.  `dir_lookup` looks a name up in
that table.  `dir_link` fills the slot behind the first free one; that extends
the table only if there is no row in it.
-/

namespace RxOs.DirectoryMap

open Function ByteView Exec Interaction Transition SlotTable Params Blocks
open BitMap Dinode Inode Kernel FileRefinement FileTable Operations Directory
open RxOs.Sequential

/-! ## Names -/

def cName (bytes : List UInt8) : List UInt8 :=
  bytes.takeWhile (· ≠ 0)

/-- The names that `namex` hands to the directory methods fit in the buffer and
have their zero in it. -/
structure Terminated (name : List UInt8) : Prop where
  length_le : name.length ≤ dirsiz
  zero_mem : 0 ∈ name

theorem cName_cons (byte : UInt8) (bytes : List UInt8) :
    cName (byte :: bytes) = if byte = 0 then [] else byte :: cName bytes := by
  by_cases hzero : byte = 0 <;> simp [cName, hzero]

theorem length_cName_lt {bytes : List UInt8} (hzero : 0 ∈ bytes) :
    (cName bytes).length < bytes.length := by
  induction bytes with
  | nil => simp at hzero
  | cons byte bytes ih =>
    rw [cName_cons]
    by_cases hbyte : byte = 0
    · simp [hbyte]
    · rw [if_neg hbyte, List.length_cons, List.length_cons]
      have htail : 0 ∈ bytes := by
        rcases List.mem_cons.mp hzero with heq | htail
        · exact absurd heq.symm hbyte
        · exact htail
      exact Nat.succ_lt_succ (ih htail)

theorem cName_eq_self {bytes : List UInt8} (hzero : 0 ∉ bytes) : cName bytes = bytes := by
  rw [cName, List.takeWhile_eq_self_iff]
  intro byte hbyte
  simp only [ne_eq, decide_not, Bool.not_eq_eq_eq_not, Bool.not_true,
    decide_eq_false_iff_not]
  rintro rfl
  exact hzero hbyte

theorem cName_append_replicate (bytes : List UInt8) (count : ℕ) :
    cName (bytes ++ List.replicate count 0) = cName bytes := by
  induction bytes with
  | nil =>
    cases count with
    | zero => rfl
    | succ count => rw [List.nil_append, List.replicate_succ, cName_cons]; rfl
  | cons byte bytes ih => rw [List.cons_append, cName_cons, cName_cons, ih]

/-- The comparison of `dir_lookup` compares names, if both have their zero. -/
theorem sameName_iff (name entry : List UInt8) :
    sameName name entry = true ↔ 0 ∈ name ∧ 0 ∈ entry ∧ cName name = cName entry := by
  induction name generalizing entry with
  | nil => simp [sameName]
  | cons byte name ih =>
    cases entry with
    | nil => simp [sameName]
    | cons other entry =>
      rw [sameName, cName_cons, cName_cons]
      by_cases hsame : byte = other
      · subst hsame
        by_cases hzero : byte = 0
        · simp [hzero]
        · have hzero' : ¬0 = byte := fun heq => hzero heq.symm
          simp [hzero, hzero', ih]
      · by_cases hleft : byte = 0 <;> by_cases hright : other = 0 <;>
          simp_all

/-! ## Entries -/

def decodeEntry (entry : List UInt8) : Option (List UInt8 × UInt32) :=
  if entryInum entry = 0 then none
  else some (cName (entryName entry), entryInum entry)

def entriesIn (bytes : List UInt8) : List (List UInt8) :=
  (List.range (bytes.length / deSize)).map fun index => (bytes.drop (deSize * index)).take deSize

def tableOf (vol : Volume) (inum : ℕ) : Table (List UInt8) UInt32 :=
  (entriesIn (bytesOf vol inum)).map decodeEntry

theorem length_encodeEntry (inum : UInt32) {name : List UInt8} (hname : name.length ≤ dirsiz) :
    (encodeEntry inum name).length = deSize := by
  have hdirsiz : dirsiz = 14 := rfl
  have hdeSize : deSize = 16 := rfl
  simp only [encodeEntry, List.length_append, List.length_cons,
    List.length_nil, List.length_replicate]
  omega

theorem entryInum_encodeEntry {inum : UInt32} (name : List UInt8)
    (hinum : inum.toNat < 65536) : entryInum (encodeEntry inum name) = inum := by
  apply UInt32.toNat_inj.mp
  simp only [entryInum, encodeEntry, List.cons_append, List.nil_append,
    List.getD_cons_zero, List.getD_cons_succ]
  simp only [UInt32.toNat_add, UInt32.toNat_mul, UInt8.toNat_toUInt32,
    UInt32.toNat_toUInt8, UInt32.toNat_shiftRight, UInt32.reduceToNat,
    Nat.reduceMod, Nat.shiftRight_eq_div_pow]
  omega

theorem entryName_encodeEntry (inum : UInt32) (name : List UInt8) :
    entryName (encodeEntry inum name) = name ++ List.replicate (dirsiz - name.length) 0 := by
  simp [entryName, encodeEntry]

theorem decodeEntry_encodeEntry {inum : UInt32} (name : List UInt8)
    (hinum : inum.toNat < 65536) (hnonzero : inum ≠ 0) :
    decodeEntry (encodeEntry inum name) = some (cName name, inum) := by
  rw [decodeEntry, entryInum_encodeEntry name hinum, if_neg hnonzero,
    entryName_encodeEntry, cName_append_replicate]

/-- The test of `dir_lookup` on an entry. -/
theorem matches_iff {name entry : List UInt8} (hname : Terminated name)
    (hentry : entry.length = deSize) :
    (entryInum entry ≠ 0 ∧ sameName name (entryName entry)) ↔
      ∃ inum, decodeEntry entry = some (cName name, inum) := by
  have hdirsiz : dirsiz = 14 := rfl
  have hdeSize : deSize = 16 := rfl
  have hlength : (entryName entry).length = dirsiz := by
    rw [entryName, List.length_drop]
    omega
  rw [sameName_iff, decodeEntry]
  by_cases hzero : entryInum entry = 0
  · simp [hzero]
  · rw [if_neg hzero]
    constructor
    · rintro ⟨-, -, -, hsame⟩
      exact ⟨entryInum entry, by rw [hsame]⟩
    · rintro ⟨inum, hrow⟩
      have hsame : cName (entryName entry) = cName name :=
        congrArg Prod.fst (Option.some.inj hrow)
      refine ⟨hzero, hname.zero_mem, ?_, hsame.symm⟩
      by_contra hmissing
      have hlong := length_cName_lt hname.zero_mem
      rw [cName_eq_self hmissing] at hsame
      rw [← hsame, hlength] at hlong
      have hshort := hname.length_le
      omega

theorem length_entriesIn (bytes : List UInt8) :
    (entriesIn bytes).length = bytes.length / deSize := by
  rw [entriesIn, List.length_map, List.length_range]

theorem getElem_entriesIn (bytes : List UInt8) {index : ℕ}
    (hindex : index < (entriesIn bytes).length) :
    (entriesIn bytes)[index] = (bytes.drop (deSize * index)).take deSize := by simp [entriesIn]

theorem length_of_mem_entriesIn {bytes entry : List UInt8}
    (hentry : entry ∈ entriesIn bytes) : entry.length = deSize := by
  simp only [entriesIn, List.mem_map, List.mem_range] at hentry
  obtain ⟨index, hindex, rfl⟩ := hentry
  rw [show deSize = 16 from rfl] at *
  rw [List.length_take, List.length_drop]
  omega

/-- Overwriting sixteen bytes at a multiple of sixteen replaces an entry. -/
theorem entriesIn_overwrite {bytes data : List UInt8} {index : ℕ} (haligned : deSize ∣ bytes.length)
    (hindex : index ≤ (entriesIn bytes).length) (hdata : data.length = deSize) :
    entriesIn (overwrite bytes (deSize * index) data) = (entriesIn bytes).take index ++
        data :: (entriesIn bytes).drop (index + 1) := by
  have hcount : (entriesIn bytes).length = bytes.length / 16 := length_entriesIn bytes
  rw [show deSize = 16 from rfl] at *
  rw [hcount] at hindex
  have hbefore : (bytes.take (16 * index)).length = 16 * index := by
    rw [List.length_take]
    omega
  have htake : ((entriesIn bytes).take index).length = index := by
    rw [List.length_take, hcount]
    omega
  have hlength : (overwrite bytes (16 * index) data).length =
      max bytes.length (16 * (index + 1)) := by
    rw [overwrite, List.length_append, List.length_append, hbefore, List.length_drop]
    omega
  apply List.ext_getElem
  · rw [length_entriesIn, hlength, List.length_append, List.length_cons, htake,
      List.length_drop, hcount, show deSize = 16 from rfl]
    omega
  · intro other hleft hright
    rw [getElem_entriesIn, show deSize = 16 from rfl]
    rcases lt_trichotomy other index with hlt | rfl | hgt
    · rw [List.getElem_append_left (by omega), List.getElem_take,
        getElem_entriesIn, show deSize = 16 from rfl, overwrite,
        List.append_assoc, List.drop_append_of_le_length (by omega),
        List.take_append_of_le_length (by rw [List.length_drop]; omega),
        List.drop_take, List.take_take, Nat.min_eq_left (by omega)]
    · rw [List.getElem_append_right (by omega)]
      simp only [htake, Nat.sub_self, List.getElem_cons_zero]
      rw [overwrite, List.append_assoc, List.drop_append, hbefore,
        Nat.sub_self, List.drop_zero, List.drop_of_length_le (by omega),
        List.nil_append, List.take_append_of_le_length (by omega),
        List.take_of_length_le (by omega)]
    · obtain ⟨further, rfl⟩ : ∃ further, other = index + 1 + further :=
        ⟨other - (index + 1), by omega⟩
      rw [List.getElem_append_right (by omega)]
      simp only [htake]
      have hoffset : index + 1 + further - index = further + 1 := by omega
      simp only [hoffset, List.getElem_cons_succ, List.getElem_drop]
      rw [getElem_entriesIn, show deSize = 16 from rfl, overwrite,
        List.drop_append, List.drop_of_length_le (by
          rw [List.length_append]
          omega),
        List.nil_append, List.length_append, hbefore, List.drop_drop]
      congr 2
      omega

/-! ## Reading a directory -/

/-- A directory whose sleep lock is held: the copy agrees with the inode table,
and the bytes are whole entries in the direct-addressed range. -/
structure OpenDir (kernel : KernelState) (dir : Handle) : Prop where
  sound : Sound (filesOf kernel.vol)
  inum_lt : dir.inum.toNat < kernel.vol.sb.ninodes
  copy_eq : kernel.idatas dir.index = loaded kernel.vol dir.inum.toNat
  itype_eq : (onDisk kernel.vol dir.inum.toNat).itype = .directory
  aligned : deSize ∣ (onDisk kernel.vol dir.inum.toNat).size.toNat
  size_le : (onDisk kernel.vol dir.inum.toNat).size.toNat ≤ ndirect * bsize

def entriesOf (kernel : KernelState) (dir : Handle) : List (List UInt8) :=
  entriesIn (bytesOf kernel.vol dir.inum.toNat)

section Read

variable {proc : Proc} {kernel : KernelState} {dir : Handle}

theorem length_bytesOf (vol : Volume) (inum : ℕ) :
    (bytesOf vol inum).length = min (onDisk vol inum).size.toNat (ndirect * bsize) := by
  rw [bytesOf, contents, List.length_map, List.length_range]

theorem OpenDir.length_bytes (hdir : OpenDir kernel dir) :
    (bytesOf kernel.vol dir.inum.toNat).length = (onDisk kernel.vol dir.inum.toNat).size.toNat := by
  have hsize := hdir.size_le
  rw [length_bytesOf]
  omega

theorem OpenDir.size_eq (hdir : OpenDir kernel dir) :
    (onDisk kernel.vol dir.inum.toNat).size.toNat = deSize * (entriesOf kernel dir).length := by
  rw [entriesOf, length_entriesIn, hdir.length_bytes, Nat.mul_div_cancel' hdir.aligned]

theorem entryOffsets_eq (first count : ℕ) :
    entryOffsets (deSize * first) (deSize * count) =
      (List.range' first (count - first)).map (deSize * ·) := by
  rw [entryOffsets, List.range'_eq_map_range, List.map_map]
  have hcount : (deSize * count - deSize * first + deSize - 1) / deSize = count - first := by
    rw [show deSize = 16 from rfl]
    omega
  rw [hcount]
  apply List.map_congr_left
  intro index _
  exact (Nat.mul_add deSize first index).symm

theorem OpenDir.entryOffsets_eq (hdir : OpenDir kernel dir) (first : ℕ) :
    entryOffsets (deSize * first) (onDisk kernel.vol dir.inum.toNat).size.toNat =
      (List.range' first ((entriesOf kernel dir).length - first)).map (deSize * ·) := by
  rw [hdir.size_eq, DirectoryMap.entryOffsets_eq]

/-- Reading an entry of the direct-addressed range at its offset returns it and
changes nothing. -/
theorem execute_readEntry_direct (hsound : Sound (filesOf kernel.vol))
    (hinum : dir.inum.toNat < kernel.vol.sb.ninodes)
    (hcopy : kernel.idatas dir.index = loaded kernel.vol dir.inum.toNat)
    {index : ℕ} (hindex : index < (entriesOf kernel dir).length) :
    execute proc (readEntry dir (deSize * index)) kernel =
      .ok (entriesOf kernel dir)[index] kernel := by
  have hlength := hindex
  have hrange : ndirect * bsize = 12288 := rfl
  rw [entriesOf, length_entriesIn, length_bytesOf] at hlength
  rw [show deSize = 16 from rfl] at *
  have hoffset : (UInt32.ofNat (16 * index)).toNat = 16 * index := toNat_ofNat_of_lt (by omega)
  have hread : (loaded kernel.vol dir.inum.toNat).read (.ofNat (16 * index)) 16 kernel.vol = _ :=
    read_loaded hsound hinum (by rw [hoffset]; change 16 * index + 16 ≤ _; omega)
      (by rw [hoffset]; change 16 * index + 16 ≤ _; omega)
  rw [hoffset, ← hcopy] at hread
  have hentry : (entriesOf kernel dir)[index] =
      ((bytesOf kernel.vol dir.inum.toNat).drop (16 * index)).take 16 := getElem_entriesIn _ hindex
  have hperform : execute proc (act (.read dir (.ofNat (16 * index)) (.ofNat deSize))) kernel =
        .ok (.ok (entriesOf kernel dir)[index]) kernel := by
    rw [execute_act]
    change onData dir (·.read (.ofNat (16 * index)) (.ofNat deSize)) kernel = _
    rw [hentry]
    exact onData_of_reads hread
  rw [readEntry, execute_bind_of_ok hperform]
  rfl

theorem execute_readEntry (hdir : OpenDir kernel dir) {index : ℕ}
    (hindex : index < (entriesOf kernel dir).length) :
    execute proc (readEntry dir (deSize * index)) kernel =
      .ok (entriesOf kernel dir)[index] kernel :=
  execute_readEntry_direct hdir.sound hdir.inum_lt hdir.copy_eq hindex

/-- The end of a look-up: a handle on the inode that was found. -/
def search (found : Option UInt32) : KernelM (Option Handle) :=
  match found with
  | none => pure none
  | some inum => some <$> cacheGet inum

theorem execute_lookupIn (hdir : OpenDir kernel dir) {name : List UInt8}
    (hname : Terminated name) (first count : ℕ)
    (hcount : first + count = (entriesOf kernel dir).length) :
    execute proc (lookupIn dir name ((List.range' first count).map (deSize * ·))) kernel =
      search (lookup (((entriesOf kernel dir).drop first).map decodeEntry)
        (cName name)) kernel := by
  induction count generalizing first with
  | zero =>
    rw [List.drop_of_length_le (by omega)]
    rfl
  | succ count ih =>
    have hfirst : first < (entriesOf kernel dir).length := by omega
    have hlength := length_of_mem_entriesIn (List.getElem_mem hfirst)
    rw [List.range'_succ, List.map_cons, lookupIn,
      execute_bind_of_ok (execute_readEntry hdir hfirst),
      List.drop_eq_getElem_cons hfirst, List.map_cons]
    by_cases hmatch : entryInum (entriesOf kernel dir)[first] ≠ 0 ∧
        sameName name (entryName (entriesOf kernel dir)[first])
    · obtain ⟨inum, hrow⟩ := (matches_iff hname hlength).mp hmatch
      have hinum : entryInum (entriesOf kernel dir)[first] = inum := by
        rw [decodeEntry, if_neg hmatch.1] at hrow
        exact congrArg Prod.snd (Option.some.inj hrow)
      rw [if_pos hmatch, hrow, lookup_cons_self, hinum]
      exact congrFun (execute_act_map _ some) kernel
    · have hother : ∀ inum, decodeEntry (entriesOf kernel dir)[first] ≠
          some (cName name, inum) := fun inum hrow =>
        hmatch ((matches_iff hname hlength).mpr ⟨inum, hrow⟩)
      rw [if_neg hmatch, lookup_cons_of_ne hother]
      exact ih (first + 1) (by omega)

theorem OpenDir.itype_loaded (hdir : OpenDir kernel dir) :
    ¬(loaded kernel.vol dir.inum.toNat).dinode.itype ≠ .directory :=
  fun hne => hne hdir.itype_eq

theorem execute_view (hdir : OpenDir kernel dir) :
    execute proc (act (.view dir)) kernel = .ok (loaded kernel.vol dir.inum.toNat) kernel := by
  rw [execute_act, ← hdir.copy_eq]
  rfl

/-- `dir_lookup` looks the name up in the table of the directory. -/
theorem execute_dirLookup (hdir : OpenDir kernel dir) {name : List UInt8}
    (hname : Terminated name) :
    execute proc (dirLookup dir name) kernel =
      search (lookup (tableOf kernel.vol dir.inum.toNat) (cName name))
        kernel := by
  have hoffsets := hdir.entryOffsets_eq 0
  rw [Nat.mul_zero, Nat.sub_zero] at hoffsets
  rw [dirLookup, execute_bind_of_ok (execute_view hdir), if_neg hdir.itype_loaded]
  change execute proc (lookupIn dir name (entryOffsets 0
    (onDisk kernel.vol dir.inum.toNat).size.toNat)) kernel = _
  rw [hoffsets]
  exact execute_lookupIn hdir hname 0 _ (Nat.zero_add _)

end Read

/-! ## Writing an entry -/

/-- The slot that `dir_link` fills: the one behind the first free slot, or a new
one at the end. -/
def linkSlot : Table (List UInt8) UInt32 → ℕ
  | [] => 0
  | none :: _ => 1
  | some _ :: table => linkSlot table + 1

theorem linkSlot_le (table : Table (List UInt8) UInt32) : linkSlot table ≤ table.length := by
  induction table with
  | nil => exact Nat.le_refl 0
  | cons slot table ih =>
    cases slot with
    | none => exact Nat.succ_le_succ (Nat.zero_le _)
    | some row => exact Nat.succ_le_succ ih

/-- Behind the first free slot there is no row, or no slot at all. -/
def FreeBehind (table : Table (List UInt8) UInt32) : Prop :=
  ∀ before slot after, table = before ++ none :: slot :: after → none ∉ before → slot = none

/-- The slot that `dir_link` fills is free. -/
theorem freeAt_linkSlot_iff (table : Table (List UInt8) UInt32) :
    FreeAt table (linkSlot table) ↔ FreeBehind table := by
  induction table with
  | nil =>
    refine iff_of_true (by simp [FreeAt, linkSlot]) ?_
    intro before slot after htable
    simp at htable
  | cons first table ih =>
    cases first with
    | none =>
      constructor
      · intro hfree before slot after htable hlive
        cases before with
        | nil =>
          rw [List.nil_append, List.cons.injEq] at htable
          match slot with
          | none => rfl
          | some row => exact absurd (by rw [htable.2]; rfl) (hfree row)
        | cons other before =>
          rw [List.cons_append, List.cons.injEq] at htable
          rw [← htable.1] at hlive
          exact absurd List.mem_cons_self hlive
      · intro hbehind row hrow
        cases table with
        | nil => cases hrow
        | cons slot after =>
          have hslot := hbehind [] slot after rfl List.not_mem_nil
          rw [hslot] at hrow
          cases hrow
    | some row =>
      have hshift : FreeAt (some row :: table) (linkSlot table + 1) ↔
          FreeAt table (linkSlot table) := Iff.rfl
      rw [linkSlot, hshift, ih]
      constructor
      · intro hbehind before slot after htable hlive
        cases before with
        | nil => simp at htable
        | cons other before =>
          rw [List.cons_append, List.cons.injEq] at htable
          exact hbehind before slot after htable.2 fun hmem => hlive (List.mem_cons_of_mem _ hmem)
      · intro hbehind before slot after htable hlive
        refine hbehind (some row :: before) slot after (by rw [htable, List.cons_append]) ?_
        simpa using hlive

section Write

variable {proc : Proc} {kernel next : KernelState} {dir : Handle}

theorem execute_linkOffset (hdir : OpenDir kernel dir) (first count : ℕ)
    (hcount : first + count = (entriesOf kernel dir).length) :
    execute proc (linkOffset dir ((List.range' first count).map (deSize * ·))
        (deSize * first)) kernel = .ok (deSize * (first +
        linkSlot (((entriesOf kernel dir).drop first).map decodeEntry)))
          kernel := by
  induction count generalizing first with
  | zero =>
    rw [List.drop_of_length_le (by omega)]
    rfl
  | succ count ih =>
    have hfirst : first < (entriesOf kernel dir).length := by omega
    have hnext : deSize * first + deSize = deSize * (first + 1) := (Nat.mul_succ deSize first).symm
    rw [List.range'_succ, List.map_cons, linkOffset,
      execute_bind_of_ok (execute_readEntry hdir hfirst),
      List.drop_eq_getElem_cons hfirst, List.map_cons, hnext, decodeEntry]
    by_cases hzero : entryInum (entriesOf kernel dir)[first] = 0
    · rw [if_pos hzero, if_pos hzero]
      rfl
    · rw [if_neg hzero, if_neg hzero, linkSlot, ih (first + 1) (by omega)]
      congr 2
      omega

/-- One entry of a directory was written. -/
structure EntryWritten (kernel next : KernelState) (dir : Handle)
    (index : ℕ) (entry : List UInt8) : Prop where
  written : FileWritten kernel.vol dir.inum.toNat (deSize * index) entry
    next.vol
  state_eq : next = { kernel with
    vol := next.vol
    idatas := update kernel.idatas dir.index (loaded next.vol dir.inum.toNat) }

def directEntries : ℕ := ndirect * bsize / deSize

theorem EntryWritten.openDir {index : ℕ} {entry : List UInt8}
    (hdir : OpenDir kernel dir) (hentry : entry.length = deSize) (hroom : index < directEntries)
    (hwritten : EntryWritten kernel next dir index entry) : OpenDir next dir := by
  have haligned := hdir.aligned
  have hle := hdir.size_le
  have hsize := hwritten.written.size_eq
  have hentries : directEntries = 768 := rfl
  have hrange : ndirect * bsize = 12288 := rfl
  obtain ⟨size, addrs, hsame⟩ := hwritten.written.same
  rw [hentry, show deSize = 16 from rfl] at *
  refine ⟨hwritten.written.sound, ?_, ?_, ?_, ?_, ?_⟩
  · rw [hwritten.written.sb_eq]
    exact hdir.inum_lt
  · rw [hwritten.state_eq]
    exact update_self _ _ _
  · rw [hsame]
    exact hdir.itype_eq
  · rw [hsize, show deSize = 16 from rfl]
    rcases Nat.le_total (onDisk kernel.vol dir.inum.toNat).size.toNat
      (16 * index + 16) with hmax | hmax
    · rw [Nat.max_eq_right hmax]
      omega
    · rw [Nat.max_eq_left hmax]
      exact haligned
  · rw [hsize]
    omega

/-- Writing an entry fills a slot of the table. -/
theorem EntryWritten.tableOf_eq {index : ℕ} {entry : List UInt8}
    (hdir : OpenDir kernel dir) (hentry : entry.length = deSize)
    (hindex : index ≤ (entriesOf kernel dir).length)
    (hwritten : EntryWritten kernel next dir index entry) :
    tableOf next.vol dir.inum.toNat =
      place (tableOf kernel.vol dir.inum.toNat) index (decodeEntry entry) := by
  have haligned : deSize ∣ (bytesOf kernel.vol dir.inum.toNat).length := by
    rw [hdir.length_bytes]
    exact hdir.aligned
  rw [tableOf, hwritten.written.bytes_eq,
    entriesIn_overwrite haligned hindex hentry, place, tableOf,
    List.map_append, List.map_cons, List.map_take, List.map_drop]

/-- `dir_link` fills its slot, unless bitmap or log run out. -/
theorem ensures_dirLink (hdir : OpenDir kernel dir)
    (hopen : 0 < kernel.outstanding) {name : List UInt8}
    (hname : name.length ≤ dirsiz) (inum : UInt32)
    (hroom : linkSlot (tableOf kernel.vol dir.inum.toNat) < directEntries) :
    Ensures (execute proc (dirLink dir name inum)) kernel
      (fun result next => result = .ok () ∧ EntryWritten kernel next dir
        (linkSlot (tableOf kernel.vol dir.inum.toNat)) (encodeEntry inum name))
      (fun cause next => Exhausted cause next.vol) := by
  have hoffsets := hdir.entryOffsets_eq 0
  rw [Nat.mul_zero, Nat.sub_zero] at hoffsets
  have hslot : execute proc (linkOffset dir (entryOffsets 0
      (onDisk kernel.vol dir.inum.toNat).size.toNat) 0) kernel =
      .ok (deSize * linkSlot (tableOf kernel.vol dir.inum.toNat)) kernel := by
    have hlink : execute proc (linkOffset dir _ (deSize * 0)) kernel = _ :=
      execute_linkOffset hdir 0 (entriesOf kernel dir).length (Nat.zero_add _)
    rwa [Nat.mul_zero, Nat.zero_add, List.drop_zero, ← hoffsets] at hlink
  have hentry := length_encodeEntry inum hname
  have hle : deSize * linkSlot (tableOf kernel.vol dir.inum.toNat) ≤
      (onDisk kernel.vol dir.inum.toNat).size.toNat := by
    rw [hdir.size_eq]
    refine Nat.mul_le_mul_left _ ((linkSlot_le _).trans_eq ?_)
    exact List.length_map _
  have hend : deSize * linkSlot (tableOf kernel.vol dir.inum.toNat) + deSize ≤ ndirect * bsize := by
    have hentries : directEntries = 768 := rfl
    have hrange : ndirect * bsize = 12288 := rfl
    rw [show deSize = 16 from rfl]
    omega
  have hoffset : (UInt32.ofNat (deSize * linkSlot (tableOf kernel.vol dir.inum.toNat))).toNat =
      deSize * linkSlot (tableOf kernel.vol dir.inum.toNat) :=
    toNat_ofNat_of_lt (hle.trans_lt (UInt32.toNat_lt _))
  have hwrite : Ensures ((loaded kernel.vol dir.inum.toNat).write
      (.ofNat (deSize * linkSlot (tableOf kernel.vol dir.inum.toNat)))
      (encodeEntry inum name)) kernel.vol _ Exhausted :=
    ensures_write_loaded hdir.sound hdir.inum_lt (hoffset.symm ▸ hle)
      (by rw [hoffset, hentry]; exact hend) hopen
  rw [hoffset] at hwrite
  rw [dirLink, ensures_execute_bind]
  refine ensures_of_eq_ok (execute_view hdir) ?_
  rw [if_neg hdir.itype_loaded, ensures_execute_bind]
  refine ensures_of_eq_ok hslot ?_
  rw [ensures_execute_bind, execute_act, Operations.perform, ensures_onData, hdir.copy_eq]
  refine hwrite.imp ?_ fun cause next hstop => hstop
  rintro _ next ⟨rfl, hwritten⟩
  rw [ensures_execute_pure]
  exact ⟨rfl, hwritten, rfl⟩

end Write

/-! ## Runs of links -/

/-- A call of `dir_link` that a caller may make. -/
structure ValidLink (dir : Handle) (kernel : KernelState)
    (call : List UInt8 × UInt32) : Prop where
  terminated : Terminated call.1
  absent : lookup (tableOf kernel.vol dir.inum.toNat) (cName call.1) = none
  inum_ne : call.2 ≠ 0
  inum_lt : call.2.toNat < 65536

def InRange (dir : Handle) (kernel : KernelState) : Prop :=
  linkSlot (tableOf kernel.vol dir.inum.toNat) < directEntries

/-- A call of `dir_link` that returns `Ok`. -/
def linkStep (proc : Proc) (dir : Handle) (kernel : KernelState)
    (call : List UInt8 × UInt32) : Option KernelState :=
  match execute proc (dirLink dir call.1 call.2) kernel with
  | .ok (.ok ()) next => some next
  | _ => none

/-- After the call `dir_lookup` looks names up in the table, and the table is
the one before with one more row. -/
structure MapExtended (dir : Handle) (kernel : KernelState)
    (call : List UInt8 × UInt32) (next : KernelState) : Prop where
  lookups : ∀ proc name, Terminated name → execute proc (dirLookup dir name) next =
      search (lookup (tableOf next.vol dir.inum.toNat) (cName name)) next
  extended : Extended (tableOf kernel.vol dir.inum.toNat)
    (tableOf next.vol dir.inum.toNat) (cName call.1) call.2

section Runs

variable {proc : Proc} {dir : Handle} {kernel next : KernelState} {call : List UInt8 × UInt32}

theorem entryWritten_of_linkStep (hdir : OpenDir kernel dir)
    (hopen : 0 < kernel.outstanding) (hname : call.1.length ≤ dirsiz) (hroom : InRange dir kernel)
    (hstep : linkStep proc dir kernel call = some next) :
    EntryWritten kernel next dir (linkSlot (tableOf kernel.vol dir.inum.toNat))
      (encodeEntry call.2 call.1) := by
  have hensures : Ensures (execute proc (dirLink dir call.1 call.2)) kernel _ _ :=
    ensures_dirLink hdir hopen hname call.2 hroom
  rw [linkStep] at hstep
  split at hstep
  · next hrun =>
      cases hstep
      exact (hensures.eq_ok hrun).2
  · cases hstep

theorem linkStep_kept (hdir : OpenDir kernel dir)
    (hopen : 0 < kernel.outstanding) (hname : call.1.length ≤ dirsiz) (hroom : InRange dir kernel)
    (hstep : linkStep proc dir kernel call = some next) :
    OpenDir next dir ∧ 0 < next.outstanding := by
  have hwritten := entryWritten_of_linkStep hdir hopen hname hroom hstep
  refine ⟨hwritten.openDir hdir (length_encodeEntry _ hname) hroom, ?_⟩
  exact hopen.trans_eq hwritten.written.outstanding_eq.symm

/-- One call extends the map exactly when there is no row behind the first free
slot. -/
theorem linkStep_extends_iff (hdir : OpenDir kernel dir)
    (hopen : 0 < kernel.outstanding) (hvalid : ValidLink dir kernel call)
    (hroom : InRange dir kernel) (hstep : linkStep proc dir kernel call = some next) :
    MapExtended dir kernel call next ↔ FreeBehind (tableOf kernel.vol dir.inum.toNat) := by
  have hname := hvalid.terminated.length_le
  have hwritten := entryWritten_of_linkStep hdir hopen hname hroom hstep
  have hdir' := (linkStep_kept hdir hopen hname hroom hstep).1
  have hindex : linkSlot (tableOf kernel.vol dir.inum.toNat) ≤ (entriesOf kernel dir).length :=
    (linkSlot_le _).trans_eq (List.length_map _)
  have htable := hwritten.tableOf_eq hdir (length_encodeEntry _ hname) hindex
  rw [decodeEntry_encodeEntry _ hvalid.inum_lt hvalid.inum_ne] at htable
  rw [← freeAt_linkSlot_iff, ← extended_place_iff call.2 hvalid.absent, ← htable]
  constructor
  · intro hextended
    exact hextended.extended
  · intro hextended
    refine ⟨?_, hextended⟩
    intro proc name hterminated
    exact execute_dirLookup hdir' hterminated

end Runs

/-! ## A small directory -/

def smallInode (entries : List UInt8) : DiskInode where
  itype := .directory
  major := 0
  minor := 0
  nlink := 1
  size := .ofNat entries.length
  addrs := fun slot => if slot = 0 then 40 else 0

def smallBitmap : Block :=
  fun index => if index.val < 6 then 255 else 0

def smallDisk (entries : List UInt8) (blockno : ℕ) : Block :=
  if blockno = 32 then
    DiskInode.store (fun _ => 0) 64 (smallInode entries)
  else if blockno = 33 then smallBitmap
  else if blockno = 40 then splice (fun _ => 0) 0 entries
  else fun _ => 0

def smallVolume (entries : List UInt8) : Volume where
  sb := sampleSb
  logged :=
    { log := sampleVolume.logged.log
      bufs := .boot (smallDisk entries) }
  events := []

theorem onDisk_smallVolume (entries : List UInt8) {inum : ℕ} (hinum : inum < 16) :
    onDisk (smallVolume entries) inum =
      if inum = 1 then smallInode entries else DiskInode.new := by
  have hplace : inum / ipb = 0 := Nat.div_eq_of_lt hinum
  have hrest : inum % ipb = inum := Nat.mod_eq_of_lt hinum
  have hblock : (smallVolume entries).block (inodeBlock (smallVolume entries).sb inum) =
        DiskInode.store (fun _ => 0) 64 (smallInode entries) := by
    rw [inodeBlock, hplace]
    rfl
  rw [onDisk, hblock, hrest]
  by_cases hone : inum = 1
  · subst hone
    exact DiskInode.load_store _ _ (by decide)
  · rw [if_neg hone, ← DiskInode.load_zero (dinodeSize * inum)]
    apply DiskInode.load_congr
    intro index hge hlt
    rw [show dinodeSize = 64 from rfl] at hge hlt
    apply DiskInode.byteAt_store
    rw [show dinodeSize = 64 from rfl]
    omega

theorem inUse_smallVolume (entries : List UInt8) {blockno : ℕ}
    (hblockno : blockno < 48) : InUse (smallVolume entries) blockno := by
  have hmarked : ∀ other < 48, bitAt smallBitmap (other % bpb) = true := by decide +kernel
  have hplace : ∀ other < 48, sampleSb.locateBmp other = 33 := by decide
  refine ⟨mem_bitmapBlocks_sampleSb.mpr (hplace blockno hblockno), ?_⟩
  change bitAt (smallDisk entries (sampleSb.locateBmp blockno)) _ = true
  rw [hplace blockno hblockno]
  exact hmarked blockno hblockno

theorem addr_smallInode (entries : List UInt8) (slot : ℕ) :
    (smallInode entries).addr slot = if slot = 0 then 40 else 0 := by
  by_cases hslot : slot < ndirect + 1
  · rw [DiskInode.addr, dif_pos hslot]
    change (if (⟨slot, hslot⟩ : Fin (ndirect + 1)) = 0 then (40 : UInt32) else 0) = _
    simp only [Fin.mk_eq_zero]
  · have hne : slot ≠ 0 := by
      have hcount : ndirect = 12 := rfl
      omega
    simp [DiskInode.addr, hslot, hne]

/-- The directory has one pointer, and the other inodes have none. -/
theorem pointer_smallVolume (entries : List UInt8) {inum : ℕ} (hinum : inum < 16) (slot : ℕ) :
    pointer (smallVolume entries).block (onDisk (smallVolume entries) inum)
      slot = if inum = 1 ∧ slot = 0 then 40 else 0 := by
  have haddr : ∀ index, (onDisk (smallVolume entries) inum).addr index =
      if inum = 1 ∧ index = 0 then 40 else 0 := by
    intro index
    rw [onDisk_smallVolume entries hinum]
    by_cases hone : inum = 1
    · simp [hone, addr_smallInode]
    · simp [hone, DiskInode.new, DiskInode.addr]
  have hcount : ndirect = 12 := rfl
  by_cases hslot : slot ≤ ndirect
  · rw [pointer_of_le _ _ hslot, haddr]
  · have hne : ¬(inum = 1 ∧ slot = 0) := by omega
    rw [pointer, if_neg hslot, recorded, if_neg (by omega), haddr,
      if_pos (if_neg (by omega)), if_neg hne]

theorem sound_smallVolume {entries : List UInt8} (hlength : entries.length ≤ bsize) :
    Sound (filesOf (smallVolume entries)) := by
  have hnonzero : ∀ inum < 16, ∀ slot,
      pointer (smallVolume entries).block (onDisk (smallVolume entries) inum)
        slot ≠ 0 → inum = 1 ∧ slot = 0 := by
    intro inum hinum slot hne
    rw [pointer_smallVolume entries hinum] at hne
    by_contra hother
    exact hne (if_neg hother)
  have hforty : pointer (smallVolume entries).block (onDisk (smallVolume entries) 1) 0 = 40 :=
    pointer_smallVolume entries (by decide) 0
  have hmetadata : ∀ blockno ∈ metadata sampleSb, blockno ≤ 33 := by
    rintro blockno ⟨other, hother, hle⟩
    have hplace := mem_bitmapBlocks_sampleSb.mp ⟨other, hother, rfl⟩
    omega
  refine ⟨layout_sampleSb, ?_, ?_, ?_, ?_, ?_, ?_, ?_, ?_⟩
  · intro blockno hmem
    have hle := hmetadata blockno hmem
    exact inUse_smallVolume entries (by omega)
  · exact ⟨rfl, rfl, rfl, LogCrash.fits_of_empty rfl⟩
  · intro inum hinum
    change inum < 16 at hinum
    exact toNat_ofNat_of_lt (by omega)
  · intro inum _
    rfl
  · intro inum hinum slot _ hne
    obtain ⟨rfl, rfl⟩ := hnonzero inum hinum slot hne
    change InUse (smallVolume entries) (UInt32.toNat
      (pointer (smallVolume entries).block (onDisk (smallVolume entries) 1) 0))
    rw [hforty]
    exact inUse_smallVolume entries (by decide)
  · intro inum hinum slot _ hne hmem
    obtain ⟨rfl, rfl⟩ := hnonzero inum hinum slot hne
    have hle := hmetadata _ hmem
    change UInt32.toNat (pointer (smallVolume entries).block
      (onDisk (smallVolume entries) 1) 0) ≤ 33 at hle
    rw [hforty] at hle
    exact absurd hle (by decide)
  · intro left hleft leftSlot _ right hright rightSlot _ hne heq
    obtain ⟨rfl, rfl⟩ := hnonzero left hleft leftSlot hne
    obtain ⟨rfl, rfl⟩ := hnonzero right hright rightSlot (heq ▸ hne)
    exact ⟨rfl, rfl⟩
  · intro inum hinum index hindex hsize
    change index * bsize < (onDisk (smallVolume entries) inum).size.toNat at hsize
    change (onDisk (smallVolume entries) inum).addr index ≠ 0
    rw [onDisk_smallVolume entries hinum] at hsize ⊢
    by_cases hone : inum = 1
    · rw [if_pos hone] at hsize ⊢
      have hsize' : (smallInode entries).size.toNat = entries.length :=
        toNat_ofNat_of_lt (hlength.trans_lt (by decide))
      have hzero : index = 0 := by
        rw [hsize'] at hsize
        have hlt := hsize.trans_le hlength
        have hbsize : bsize = 1024 := rfl
        rw [hbsize] at hlt
        omega
      rw [addr_smallInode, if_pos hzero]
      decide
    · rw [if_neg hone] at hsize
      exact absurd hsize (Nat.not_lt_zero _)

def smallKernel (entries : List UInt8) : KernelState where
  vol := smallVolume entries
  metas := fun index => if index = 0 then ⟨1, 1⟩ else ⟨0, 0⟩
  idatas := fun _ => loaded (smallVolume entries) 1
  locked := fun index => index = 0
  files := fun _ => (⟨.none, false, false, none, 0, 0⟩, 0)
  nextFile := 0
  procs := fun _ => { openFiles := fun _ => none, cwd := none }

theorem openDir_smallKernel {entries : List UInt8}
    (hlength : entries.length ≤ bsize) (haligned : deSize ∣ entries.length) :
    OpenDir (smallKernel entries) ⟨1, 0⟩ := by
  have hdisk : onDisk (smallVolume entries) 1 = smallInode entries :=
    onDisk_smallVolume entries (by decide)
  have hsize : (onDisk (smallVolume entries) 1).size.toNat = entries.length := by
    rw [hdisk]
    exact toNat_ofNat_of_lt (hlength.trans_lt (by decide))
  refine ⟨sound_smallVolume hlength, ?_, rfl, ?_, ?_, ?_⟩
  · change 1 < 16
    decide
  · exact congrArg DiskInode.itype hdisk
  · exact hsize.symm ▸ haligned
  · change (onDisk (smallVolume entries) 1).size.toNat ≤ _
    rw [hsize]
    exact hlength.trans (by decide)

/-! ## Directories under `dir_link` -/

/-- In a sequence of links every call extends the map exactly when each of them
finds no row behind the first free slot. -/
theorem run_extends_iff {proc : Proc} {dir : Handle} {first last : KernelState}
    {record : List (KernelState × (List UInt8 × UInt32))}
    (hdir : OpenDir first dir) (hopen : 0 < first.outstanding)
    (hrun : Run (linkStep proc dir) first record last)
    (hvalid : ∀ entry ∈ record, ValidLink dir entry.1 entry.2)
    (hroom : ∀ entry ∈ record, InRange dir entry.1) :
    (∀ entry ∈ record, ∀ next, linkStep proc dir entry.1 entry.2 = some next →
        MapExtended dir entry.1 entry.2 next) ↔
      ∀ entry ∈ record, FreeBehind (tableOf entry.1.vol dir.inum.toNat) := by
  have hkeep : ∀ kernel call next, OpenDir kernel dir ∧ 0 < kernel.outstanding →
      ValidLink dir kernel call ∧ InRange dir kernel → linkStep proc dir kernel call = some next →
      OpenDir next dir ∧ 0 < next.outstanding := by
    intro kernel call next hkept hcall hstep
    exact linkStep_kept hkept.1 hkept.2 hcall.1.terminated.length_le hcall.2 hstep
  have hopened := (hrun.invariant hkeep ⟨hdir, hopen⟩ fun entry hentry =>
    ⟨hvalid entry hentry, hroom entry hentry⟩).2
  refine forall₂_congr fun entry hentry => ?_
  obtain ⟨hdir', hopen'⟩ := hopened entry hentry
  obtain ⟨next, hstep⟩ := hrun.step_of_mem hentry
  have hiff := linkStep_extends_iff hdir' hopen' (hvalid entry hentry) (hroom entry hentry) hstep
  constructor
  · intro hextends
    exact hiff.mp (hextends next hstep)
  · intro hbehind other hother
    rw [hstep] at hother
    cases hother
    exact hiff.mpr hbehind

def roomyEntries : List UInt8 :=
  encodeEntry 1 [46] ++ List.replicate 32 0

def gapEntries : List UInt8 :=
  List.replicate 16 0 ++ encodeEntry 2 [102]

/-- A link of the name `g`. -/
def sampleLink : List UInt8 × UInt32 :=
  (103 :: List.replicate 13 0, 3)

theorem tableOf_roomyEntries :
    tableOf (smallVolume roomyEntries) 1 = [some ([46], 1), none, none] := by decide +kernel

theorem tableOf_gapEntries : tableOf (smallVolume gapEntries) 1 = [none, some ([102], 2)] := by
  decide +kernel

theorem valid_sampleLink {entries : List UInt8}
    (habsent : lookup (tableOf (smallVolume entries) 1) (cName sampleLink.1) = none) :
    ValidLink ⟨1, 0⟩ (smallKernel entries) sampleLink :=
  ⟨⟨by decide, by decide⟩, habsent, by decide, by decide⟩

theorem run_extends_iff_roomy :
    ∃ last, Run (linkStep 0 ⟨1, 0⟩) (smallKernel roomyEntries)
        [(smallKernel roomyEntries, sampleLink)] last ∧
      MapExtended ⟨1, 0⟩ (smallKernel roomyEntries) sampleLink last := by
  have hsome : (linkStep 0 ⟨1, 0⟩ (smallKernel roomyEntries) sampleLink).isSome = true := by
    decide +kernel
  obtain ⟨last, hstep⟩ := Option.isSome_iff_exists.mp hsome
  have hrun := Run.step hstep (Run.done last)
  refine ⟨last, hrun, ?_⟩
  have hvalid : ValidLink ⟨1, 0⟩ (smallKernel roomyEntries) sampleLink :=
    valid_sampleLink (by rw [tableOf_roomyEntries]; decide)
  have hroom : InRange ⟨1, 0⟩ (smallKernel roomyEntries) := by
    change linkSlot (tableOf (smallVolume roomyEntries) 1) < _
    rw [tableOf_roomyEntries]
    decide
  refine (run_extends_iff (openDir_smallKernel (by decide) (by decide))
    (by decide) hrun (by simpa using hvalid) (by simpa using hroom)).mpr ?_ _
    List.mem_cons_self last hstep
  intro entry hentry
  obtain rfl := List.mem_singleton.mp hentry
  change FreeBehind (tableOf (smallVolume roomyEntries) 1)
  rw [tableOf_roomyEntries, ← freeAt_linkSlot_iff]
  intro row hrow
  cases hrow

/-- A link to a directory with an entry behind a free slot loses that entry. -/
theorem not_run_extends :
    ¬∀ (proc : Proc) (dir : Handle) (first last : KernelState)
      (record : List (KernelState × (List UInt8 × UInt32))),
      OpenDir first dir → 0 < first.outstanding → Run (linkStep proc dir) first record last →
      (∀ entry ∈ record, ValidLink dir entry.1 entry.2) → (∀ entry ∈ record, InRange dir entry.1) →
      ∀ entry ∈ record, ∀ next, linkStep proc dir entry.1 entry.2 = some next →
          MapExtended dir entry.1 entry.2 next := by
  intro hall
  have hsome : (linkStep 0 ⟨1, 0⟩ (smallKernel gapEntries) sampleLink).isSome = true := by
    decide +kernel
  obtain ⟨last, hstep⟩ := Option.isSome_iff_exists.mp hsome
  have hdir : OpenDir (smallKernel gapEntries) ⟨1, 0⟩ := openDir_smallKernel (by decide) (by decide)
  have hvalid : ValidLink ⟨1, 0⟩ (smallKernel gapEntries) sampleLink :=
    valid_sampleLink (by rw [tableOf_gapEntries]; decide)
  have hroom : InRange ⟨1, 0⟩ (smallKernel gapEntries) := by
    change linkSlot (tableOf (smallVolume gapEntries) 1) < _
    rw [tableOf_gapEntries]
    decide
  have hextended := hall 0 ⟨1, 0⟩ _ last [(smallKernel gapEntries, sampleLink)]
    hdir (by decide) (Run.step hstep (Run.done last)) (by simpa using hvalid)
    (by simpa using hroom) _ List.mem_cons_self last hstep
  have hbehind := (linkStep_extends_iff hdir (by decide) hvalid hroom hstep).mp hextended
  change FreeBehind (tableOf (smallVolume gapEntries) 1) at hbehind
  rw [tableOf_gapEntries] at hbehind
  have hnone := hbehind [] (some ([102], 2)) [] rfl List.not_mem_nil
  cases hnone

end RxOs.DirectoryMap
