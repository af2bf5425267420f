import RxOs.Memory.Frames

/-!
# Copying between the kernel and user memory

`copy_out` and `copy_in` go over the pages of a user range one by one, and
unwrap the translation of each of them.  The wrappers `copy_from_addr`,
`copy_to_kernel` and `copy_from_kernel` add a check of their own, or ignore the
result.
-/

namespace RxOs.UserCopy

open Function Exec PageTable Frames

/-- Copy a slice into a page from position `start` on. -/
def writePage (bytes : ℕ → ℕ → UInt8) (frame start : ℕ) (slice : List UInt8) : ℕ → ℕ → UInt8 :=
  update bytes frame fun offset =>
    if start ≤ offset ∧ offset < start + slice.length then
      slice.getD (offset - start) 0
    else bytes frame offset

/-- The slice of `count` bytes of a page from position `start` on. -/
def readPage (bytes : ℕ → ℕ → UInt8) (frame start count : ℕ) : List UInt8 :=
  (List.range count).map fun offset => bytes frame (start + offset)

/-- The loop of `copy_out`, at position `start` of page `pa`.  Every turn but the
last copies at least one byte, so `src.length + 1` turns are enough. -/
def copyOutLoop (table : Table) :
    ℕ → ℕ → ℕ → ℕ → List UInt8 → MemM (Except String Unit)
  | 0, _, _, _, _ => return .ok ()
  | turns + 1, va, pa, start, src => do
    let count := min (pgSize - start) src.length
    modify fun memory =>
      { memory with
        bytes := writePage memory.bytes pa start (src.take count) }
    if (src.drop count).isEmpty then return .ok ()
    else do
      let pa ← unwrap (table.pgtTranslate (addPage va))
      copyOutLoop table turns (addPage va) pa 0 (src.drop count)

def copyOut (table : Table) (dst : ℕ) (src : List UInt8) :
    MemM (Except String Unit) := do
  let pa ← unwrap (table.pgtTranslate (pageRoundDown dst))
  copyOutLoop table (src.length + 1) (pageRoundDown dst) pa (dst - pageRoundDown dst) src

/-- The loop of `copy_in`; the result is what has been copied to the rest of the
buffer, of which `left` bytes are still to be filled. -/
def copyInLoop (table : Table) :
    ℕ → ℕ → ℕ → ℕ → ℕ → MemM (List UInt8)
  | 0, _, _, _, _ => return []
  | turns + 1, va, pa, start, left => do
    let count := min (pgSize - start) left
    let memory ← get
    let slice := readPage memory.bytes pa start count
    if left - count = 0 then return slice
    else do
      let pa ← unwrap (table.pgtTranslate (addPage va))
      let rest ← copyInLoop table turns (addPage va) pa 0 (left - count)
      return slice ++ rest

/-- `PageTable::copy_in`: the buffer after the copy. -/
def copyIn (table : Table) (dst : List UInt8) (src : ℕ) :
    MemM (Except String (List UInt8)) := do
  let pa ← unwrap (table.pgtTranslate (pageRoundDown src))
  let copied ← copyInLoop table (dst.length + 1) (pageRoundDown src) pa
    (src - pageRoundDown src) dst.length
  return .ok copied

def copyFromAddr (space : Space) (addr : ℕ) (buf : List UInt8) :
    MemM (Except String (List UInt8)) :=
  if addr > space.size ∨ addr + 8 > space.size then throw .invalidAddress
  else copyIn space.table buf addr

/-- `copy_to_kernel` in user mode: the result of `copy_in` is ignored. -/
def copyToKernel (table : Table) (dst : List UInt8) (src : ℕ) :
    MemM (Except String (List UInt8)) := do
  let copied ← copyIn table dst src
  match copied with
  | .ok buffer => return .ok buffer
  | .error _ => return .ok dst

/-- `copy_from_kernel` in user mode: the result of `copy_out` is ignored. -/
def copyFromKernel (table : Table) (dst : ℕ) (src : List UInt8) :
    MemM (Except String Unit) := do
  let _ ← copyOut table dst src
  return .ok ()

/-! ## User memory byte by byte -/

def userFrame (table : Table) (va : ℕ) : Option ℕ :=
  table.userPage (pageRoundDown va)

def userByte (table : Table) (memory : Memory) (va : ℕ) : Option UInt8 :=
  (userFrame table va).map fun frame => memory.bytes frame (va % pgSize)

def storeByte (table : Table) (bytes : ℕ → ℕ → UInt8) (va : ℕ) (byte : UInt8) : ℕ → ℕ → UInt8 :=
  match userFrame table va with
  | none => bytes
  | some frame => update bytes frame (update (bytes frame) (va % pgSize) byte)

def storeBytes (table : Table) (bytes : ℕ → ℕ → UInt8) :
    ℕ → List UInt8 → ℕ → ℕ → UInt8
  | _, [] => bytes
  | va, byte :: rest => storeBytes table (storeByte table bytes va byte) (va + 1) rest

/-- Every page that the range of `length` bytes from `addr` on touches is a valid
user page. -/
def ValidRange (table : Table) (addr length : ℕ) : Prop :=
  ∀ offset < length, (userFrame table (addr + offset)).isSome = true

variable {table : Table} {va pa start : ℕ}

theorem pageRoundDown_add (hva : va % pgSize = 0) (hstart : start < pgSize) :
    pageRoundDown (va + start) = va := by
  unfold pageRoundDown
  have hpos : 0 < pgSize := by decide
  rw [Nat.add_div_of_dvd_right (Nat.dvd_of_mod_eq_zero hva), Nat.div_eq_of_lt hstart, Nat.add_zero,
    Nat.div_mul_cancel (Nat.dvd_of_mod_eq_zero hva)]

theorem userFrame_add (hva : va % pgSize = 0)
    (hframe : table.userPage va = some pa) (hstart : start < pgSize) :
    userFrame table (va + start) = some pa := by
  rw [userFrame, pageRoundDown_add hva hstart, hframe]

theorem pageRoundDown_addPage (hva : va % pgSize = 0) : pageRoundDown (addPage va) = addPage va :=
  have hmod : addPage va % pgSize = 0 := by rw [addPage, Nat.add_mod_right, hva]
  Nat.div_mul_cancel (Nat.dvd_of_mod_eq_zero hmod)

/-- Bytes stored within one page. -/
theorem storeBytes_eq_writePage (hva : va % pgSize = 0)
    (hframe : table.userPage va = some pa) (bytes : ℕ → ℕ → UInt8)
    (slice : List UInt8) (hlength : start + slice.length ≤ pgSize) :
    storeBytes table bytes (va + start) slice = writePage bytes pa start slice := by
  induction slice generalizing bytes start with
  | nil =>
    funext frame offset
    by_cases hsame : frame = pa
    · subst hsame
      have hnone : ¬(start ≤ offset ∧ offset < start) := by omega
      simp [storeBytes, writePage, hnone]
    · simp [storeBytes, writePage, hsame]
  | cons byte rest ih =>
    rw [List.length_cons] at hlength
    have hstore : storeByte table bytes (va + start) byte =
        update bytes pa (update (bytes pa) start byte) := by
      rw [storeByte, userFrame_add hva hframe (by omega), Nat.add_mod, hva,
        Nat.zero_add, Nat.mod_mod, Nat.mod_eq_of_lt (by omega)]
    rw [storeBytes, hstore, Nat.add_assoc, ih _ (by omega)]
    funext frame offset
    by_cases hsame : frame = pa
    · subst hsame
      simp only [writePage, update_self]
      by_cases hfirst : offset = start
      · subst hfirst
        simp
      · rw [update_of_ne hfirst]
        by_cases hrest : start + 1 ≤ offset ∧ offset < start + 1 + rest.length
        · rw [if_pos hrest, if_pos (by rw [List.length_cons]; omega),
            show offset - start = offset - (start + 1) + 1 by omega, List.getD_cons_succ]
        · rw [if_neg hrest, if_neg (by rw [List.length_cons]; omega)]
    · simp [writePage, hsame]

theorem storeBytes_append (table : Table) (bytes : ℕ → ℕ → UInt8) (va : ℕ)
    (left right : List UInt8) :
    storeBytes table bytes va (left ++ right) =
      storeBytes table (storeBytes table bytes va left) (va + left.length)
        right := by
  induction left generalizing bytes va with
  | nil => rfl
  | cons byte left ih =>
    rw [List.cons_append, storeBytes, ih, storeBytes, List.length_cons,
      Nat.add_assoc, Nat.add_comm 1]

section Stores

variable {bytes : ℕ → ℕ → UInt8} {frame position : ℕ} {src : List UInt8}

theorem storeByte_of_ne {byte : UInt8}
    (hne : userFrame table va = some frame → va % pgSize ≠ position) :
    storeByte table bytes va byte frame position = bytes frame position := by
  unfold storeByte
  cases htarget : userFrame table va with
  | none => rfl
  | some target =>
    by_cases hframe : frame = target
    · subst hframe
      simp only [update_self]
      exact update_of_ne (hne htarget).symm _ _
    · simp only [update_of_ne hframe]

/-- A place that no address of the range leads to keeps its byte. -/
theorem storeBytes_of_ne (hne : ∀ offset < src.length, userFrame table (va + offset) = some frame →
      (va + offset) % pgSize ≠ position) :
    storeBytes table bytes va src frame position = bytes frame position := by
  induction src generalizing va bytes with
  | nil => rfl
  | cons byte src ih =>
    rw [storeBytes, ih]
    · exact storeByte_of_ne (hne 0 (Nat.zero_lt_succ _))
    · intro offset hoffset
      have hrest := hne (offset + 1) (Nat.succ_lt_succ hoffset)
      rwa [show va + (offset + 1) = va + 1 + offset by omega] at hrest

/-- A place that one address of the range leads to has the byte of the source. -/
theorem storeBytes_at {offset : ℕ} (hoffset : offset < src.length)
    (hframe : userFrame table (va + offset) = some frame)
    (halone : ∀ other < src.length, userFrame table (va + other) = some frame →
      (va + other) % pgSize = (va + offset) % pgSize → other = offset) :
    storeBytes table bytes va src frame ((va + offset) % pgSize) = src[offset] := by
  induction src generalizing va bytes offset with
  | nil => cases hoffset
  | cons byte src ih =>
    have hnext : ∀ other, va + 1 + other = va + (other + 1) := fun other => by omega
    rw [storeBytes]
    cases offset with
    | zero =>
      -- the bytes stored later go to other places
      rw [storeBytes_of_ne]
      · rw [Nat.add_zero] at hframe
        rw [storeByte, Nat.add_zero, hframe]
        simp
      · intro later hlater htarget heq
        rw [hnext] at htarget heq
        cases halone (later + 1) (Nat.succ_lt_succ hlater) htarget heq
    | succ offset =>
      rw [← hnext offset] at hframe halone ⊢
      refine ih (Nat.lt_of_succ_lt_succ hoffset) hframe fun other hother htarget heq => ?_
      rw [hnext other] at htarget heq
      exact Nat.succ.inj (halone (other + 1) (Nat.succ_lt_succ hother) htarget heq)

end Stores

/-- A range that starts with the valid page `pa` continues on the next page. -/
theorem validRange_iff_next (hva : va % pgSize = 0)
    (hframe : table.userPage va = some pa) (hstart : start < pgSize)
    {length : ℕ} (hlength : pgSize - start < length) :
    ValidRange table (va + start) length ↔ (table.userPage (va + pgSize)).isSome = true ∧
        ValidRange table (va + pgSize) (length - (pgSize - start)) := by
  have hnext : userFrame table (va + pgSize) = table.userPage (va + pgSize) :=
    congrArg table.userPage (pageRoundDown_addPage hva)
  constructor
  · intro hvalid
    refine ⟨?_, ?_⟩
    · have hoffset := hvalid (pgSize - start) hlength
      rwa [show va + start + (pgSize - start) = va + pgSize by omega, hnext] at hoffset
    · intro offset hoffset
      have hshift := hvalid (pgSize - start + offset) (by omega)
      rwa [show va + start + (pgSize - start + offset) = va + pgSize + offset by omega] at hshift
  · rintro ⟨-, hrest⟩ offset hoffset
    by_cases hpage : start + offset < pgSize
    · rw [Nat.add_assoc, userFrame_add hva hframe hpage]
      rfl
    · have hshift := hrest (offset - (pgSize - start)) (by omega)
      rwa [show va + pgSize + (offset - (pgSize - start)) = va + start + offset by omega] at hshift

theorem validRange_of_page (hva : va % pgSize = 0)
    (hframe : table.userPage va = some pa) {length : ℕ} (hlength : start + length ≤ pgSize) :
    ValidRange table (va + start) length := by
  intro offset hoffset
  rw [Nat.add_assoc, userFrame_add hva hframe (by omega)]
  rfl

/-- For the pages that a range touches `pgt_translate` finds in `walked` what
the last-level entries of `table` say. -/
def Paged (walked table : Table) (addr length : ℕ) : Prop :=
  ∀ offset < length, walked.pgtTranslate (pageRoundDown (addr + offset)) =
      userFrame table (addr + offset)

theorem paged_of_formed (hformed : table.Formed) (addr length : ℕ) :
    Paged table table addr length :=
  fun _ _ => hformed.pgtTranslate_eq _

section Paged

variable {walked : Table} {addr length : ℕ}

theorem Paged.mono {less : ℕ} (hpaged : Paged walked table addr length)
    (hless : less ≤ length) : Paged walked table addr less :=
  fun offset hoffset => hpaged offset (lt_of_lt_of_le hoffset hless)

theorem Paged.first (hpaged : Paged walked table addr length) (hlength : 0 < length) :
    walked.pgtTranslate (pageRoundDown addr) = table.userPage (pageRoundDown addr) :=
  hpaged 0 hlength

/-- The next page of a range that does not end in its first page. -/
theorem Paged.next (hpaged : Paged walked table (va + start) length)
    (hva : va % pgSize = 0) (hstart : start < pgSize) (hlength : pgSize - start < length) :
    walked.pgtTranslate (addPage va) = table.userPage (addPage va) ∧
      Paged walked table (addPage va) (length - (pgSize - start)) := by
  have hshift : ∀ offset, va + start + (pgSize - start + offset) = addPage va + offset := by
    intro offset
    rw [addPage]
    omega
  constructor
  · have hfirst := hpaged (pgSize - start + 0) (by omega)
    rwa [hshift, Nat.add_zero, userFrame, pageRoundDown_addPage hva] at hfirst
  · intro offset hoffset
    have hrest := hpaged (pgSize - start + offset) (by omega)
    rwa [hshift] at hrest

end Paged

/-! ## What the loops do -/

/-- `copy_out` stores the bytes of the source if the range is valid, and panics
otherwise. -/
theorem ensures_copyOutLoop (turns : ℕ) (src : List UInt8) (hturns : src.length < turns)
    (hpaged : Paged table table (va + start) src.length) (hva : va % pgSize = 0)
    (hframe : table.userPage va = some pa) (hstart : start < pgSize) (memory : Memory) :
    Ensures (copyOutLoop table turns va pa start src) memory
      (fun result next => ValidRange table (va + start) src.length ∧
        result = .ok () ∧ next = { memory with
          bytes := storeBytes table memory.bytes (va + start) src })
      (fun _ _ => ¬ValidRange table (va + start) src.length) := by
  induction turns generalizing va pa start src memory with
  | zero => omega
  | succ turns ih =>
    simp only [copyOutLoop, ensures_bind, ensures_modify]
    by_cases hlast : src.length ≤ pgSize - start
    · have hcount : min (pgSize - start) src.length = src.length := by omega
      rw [hcount, List.take_length, List.drop_length]
      refine ⟨validRange_of_page hva hframe (by omega), rfl, ?_⟩
      rw [storeBytes_eq_writePage hva hframe _ _ (by omega)]
    · have hcount : min (pgSize - start) src.length = pgSize - start := by omega
      have hpos : 0 < pgSize - start := by omega
      have hnext := validRange_iff_next hva hframe hstart (Nat.not_le.mp hlast)
      rw [hcount]
      have hrest : (src.drop (pgSize - start)).isEmpty = false := by
        rw [List.isEmpty_eq_false_iff, ← List.length_pos_iff, List.length_drop]
        omega
      obtain ⟨hwalk, hpaged⟩ := hpaged.next hva hstart (Nat.not_le.mp hlast)
      rw [hrest, hwalk]
      simp only [Bool.false_eq_true, if_false, ensures_bind]
      cases htranslate : table.userPage (addPage va) with
      | none =>
        rw [addPage] at htranslate
        change ¬_
        rw [hnext, htranslate]
        simp
      | some pa' =>
        rw [addPage] at htranslate
        change Ensures (copyOutLoop table turns (va + pgSize) pa' 0 _) _ _ _
        have hloop := ih (src.drop (pgSize - start)) (by rw [List.length_drop]; omega)
          (by rw [Nat.add_zero, List.length_drop]; exact hpaged)
          (by rw [Nat.add_mod_right, hva]) htranslate (show 0 < pgSize by decide)
          { memory with
            bytes := writePage memory.bytes pa start (src.take (pgSize - start)) }
        rw [Nat.add_zero, List.length_drop] at hloop
        refine hloop.imp ?_ ?_
        · rintro result next ⟨hvalid, hresult, rfl⟩
          refine ⟨hnext.mpr ⟨by rw [htranslate]; rfl, hvalid⟩, hresult, ?_⟩
          have htake : (src.take (pgSize - start)).length = pgSize - start := by
            rw [List.length_take]
            omega
          have hfirst : storeBytes table memory.bytes (va + start)
              (src.take (pgSize - start)) = _ :=
            storeBytes_eq_writePage hva hframe _ _ (by rw [htake]; omega)
          have hsplit := storeBytes_append table memory.bytes (va + start)
            (src.take (pgSize - start)) (src.drop (pgSize - start))
          rw [List.take_append_drop, htake, hfirst,
            show va + start + (pgSize - start) = va + pgSize by omega] at hsplit
          rw [hsplit]
        · intro cause next hinvalid hvalid
          exact hinvalid (hnext.mp hvalid).2

def userBytes (table : Table) (memory : Memory) (addr length : ℕ) : List UInt8 :=
  (List.range length).map fun offset => (userByte table memory (addr + offset)).getD 0

theorem userBytes_eq_readPage (hva : va % pgSize = 0)
    (hframe : table.userPage va = some pa) (memory : Memory) {count : ℕ}
    (hcount : start + count ≤ pgSize) :
    userBytes table memory (va + start) count = readPage memory.bytes pa start count := by
  apply List.map_congr_left
  intro offset hoffset
  rw [List.mem_range] at hoffset
  rw [Nat.add_assoc, userByte, userFrame_add hva hframe (by omega),
    Nat.add_mod, hva, Nat.zero_add, Nat.mod_mod, Nat.mod_eq_of_lt (by omega)]
  rfl

theorem userBytes_add (table : Table) (memory : Memory) (addr left right : ℕ) :
    userBytes table memory addr (left + right) = userBytes table memory addr left ++
        userBytes table memory (addr + left) right := by
  unfold userBytes
  rw [List.range_add, List.map_append, List.map_map]
  refine congrArg₂ _ rfl (List.map_congr_left ?_)
  intro offset _
  rw [comp_apply, Nat.add_assoc]

/-- `copy_in` reads the bytes of the range if it is valid, and panics
otherwise. -/
theorem ensures_copyInLoop (turns left : ℕ) (hturns : left < turns)
    (hpaged : Paged table table (va + start) left)
    (hva : va % pgSize = 0) (hframe : table.userPage va = some pa)
    (hstart : start < pgSize) (memory : Memory) :
    Ensures (copyInLoop table turns va pa start left) memory
      (fun copied next => ValidRange table (va + start) left ∧
        copied = userBytes table memory (va + start) left ∧ next = memory)
      (fun _ _ => ¬ValidRange table (va + start) left) := by
  induction turns generalizing va pa start left with
  | zero => omega
  | succ turns ih =>
    simp only [copyInLoop, ensures_bind, ensures_get]
    by_cases hlast : left ≤ pgSize - start
    · have hcount : min (pgSize - start) left = left := by omega
      rw [hcount, Nat.sub_self, if_pos rfl]
      exact ⟨validRange_of_page hva hframe (by omega),
        (userBytes_eq_readPage hva hframe memory (by omega)).symm, rfl⟩
    · have hcount : min (pgSize - start) left = pgSize - start := by omega
      have hnext := validRange_iff_next hva hframe hstart (Nat.not_le.mp hlast)
      obtain ⟨hwalk, hpaged⟩ := hpaged.next hva hstart (Nat.not_le.mp hlast)
      rw [hcount, if_neg (by omega), hwalk]
      simp only [ensures_bind]
      cases htranslate : table.userPage (addPage va) with
      | none =>
        rw [addPage] at htranslate
        change ¬_
        rw [hnext, htranslate]
        simp
      | some pa' =>
        rw [addPage] at htranslate
        have hloop := ih (left - (pgSize - start)) (by omega) (by rw [Nat.add_zero]; exact hpaged)
          (by rw [Nat.add_mod_right, hva]) htranslate (show 0 < pgSize by decide)
        change Ensures (copyInLoop table turns (va + pgSize) pa' 0 _) _ _ _
        rw [Nat.add_zero] at hloop
        refine hloop.imp ?_ ?_
        · rintro copied next ⟨hvalid, rfl, rfl⟩
          refine ⟨hnext.mpr ⟨by rw [htranslate]; rfl, hvalid⟩, ?_, rfl⟩
          have hfirst : userBytes table next (va + start) (pgSize - start) = _ :=
            userBytes_eq_readPage hva hframe next (by omega)
          have hsplit := userBytes_add table next (va + start)
            (pgSize - start) (left - (pgSize - start))
          rw [Nat.add_sub_cancel' (Nat.not_le.mp hlast).le, hfirst,
            show va + start + (pgSize - start) = va + pgSize by omega] at hsplit
          exact hsplit.symm
        · intro cause next hinvalid hvalid
          exact hinvalid (hnext.mp hvalid).2

/-! ## The functions -/

/-- The code looks up the first page of a range even if the range is empty. -/
def Reachable (table : Table) (addr length : ℕ) : Prop :=
  ValidRange table addr (max length 1)

theorem reachable_iff {table : Table} {addr length : ℕ} :
    Reachable table addr length ↔ (userFrame table addr).isSome = true ∧
        ValidRange table addr length := by
  unfold Reachable ValidRange
  constructor
  · intro hreachable
    exact ⟨hreachable 0 (by omega), fun offset hoffset => hreachable offset (by omega)⟩
  · rintro ⟨hfirst, hrest⟩ offset hoffset
    by_cases hzero : offset = 0
    · rwa [hzero]
    · exact hrest offset (by omega)

theorem pageRoundDown_mod (addr : ℕ) : pageRoundDown addr % pgSize = 0 :=
  Nat.mul_mod_left _ _

theorem pageRoundDown_add_sub (addr : ℕ) :
    pageRoundDown addr + (addr - pageRoundDown addr) = addr ∧
      addr - pageRoundDown addr < pgSize := by
  have hpos : 0 < pgSize := by decide
  have hle : pageRoundDown addr ≤ addr := Nat.div_mul_le_self _ _
  have hmod := Nat.mod_lt addr hpos
  have hdiv : pageRoundDown addr + addr % pgSize = addr := by
    rw [pageRoundDown, Nat.mul_comm]
    exact Nat.div_add_mod addr pgSize
  omega

theorem ensures_copyOut (dst : ℕ) (src : List UInt8)
    (hpaged : Paged table table dst (max src.length 1)) (memory : Memory) :
    Ensures (copyOut table dst src) memory (fun result next => Reachable table dst src.length ∧
        result = .ok () ∧ next = { memory with
          bytes := storeBytes table memory.bytes dst src })
      (fun _ _ => ¬Reachable table dst src.length) := by
  obtain ⟨hsum, hlt⟩ := pageRoundDown_add_sub dst
  simp only [copyOut, ensures_bind, reachable_iff, userFrame, hpaged.first (by omega)]
  cases hframe : table.userPage (pageRoundDown dst) with
  | none => exact fun hreachable => absurd hreachable.1 (by simp)
  | some pa =>
    have hloop := ensures_copyOutLoop (src.length + 1) src
      (Nat.lt_succ_self _) (by rw [hsum]; exact hpaged.mono (by omega))
      (pageRoundDown_mod dst) hframe hlt memory
    rw [hsum] at hloop
    refine hloop.imp ?_ ?_
    · rintro result next ⟨hvalid, hresult, hnext⟩
      exact ⟨⟨rfl, hvalid⟩, hresult, hnext⟩
    · intro cause next hinvalid hreachable
      exact hinvalid hreachable.2

theorem ensures_copyIn (dst : List UInt8) (src : ℕ)
    (hpaged : Paged table table src (max dst.length 1)) (memory : Memory) :
    Ensures (copyIn table dst src) memory (fun result next => Reachable table src dst.length ∧
        result = .ok (userBytes table memory src dst.length) ∧ next = memory)
      (fun _ _ => ¬Reachable table src dst.length) := by
  obtain ⟨hsum, hlt⟩ := pageRoundDown_add_sub src
  simp only [copyIn, ensures_bind, reachable_iff, userFrame, hpaged.first (by omega)]
  cases hframe : table.userPage (pageRoundDown src) with
  | none => exact fun hreachable => absurd hreachable.1 (by simp)
  | some pa =>
    have hloop := ensures_copyInLoop (dst.length + 1) dst.length
      (Nat.lt_succ_self _) (by rw [hsum]; exact hpaged.mono (by omega))
      (pageRoundDown_mod src) hframe hlt memory
    rw [hsum] at hloop
    refine hloop.imp ?_ ?_
    · rintro copied next ⟨hvalid, rfl, rfl⟩
      exact ⟨⟨rfl, hvalid⟩, rfl, rfl⟩
    · intro cause next hinvalid hreachable
      exact hinvalid hreachable.2

/-- No panic; success with the expected result exactly on valid ranges, and an
error on all others. -/
def Contract {Value : Type} (program : MemM (Except String Value))
    (memory : Memory) (valid : Prop) (expected : Value) (after : Memory) : Prop :=
  Ensures program memory (fun result next =>
      match result with
      | .ok value => valid ∧ value = expected ∧ next = after
      | .error _ => ¬valid)
    (fun _ _ => False)

/-- A program that succeeds where `reachable` holds, as expected, and panics
everywhere else meets its contract where `reachable` holds. -/
theorem contract_iff {Value : Type} {program : MemM (Except String Value)}
    {memory after : Memory} {valid reachable : Prop} {expected : Value} (hvalid : reachable → valid)
    (hensures : Ensures program memory
      (fun result next => reachable ∧ result = .ok expected ∧ next = after)
      (fun _ _ => ¬reachable)) : Contract program memory valid expected after ↔ reachable := by
  unfold Contract
  constructor
  · intro hcontract
    cases hrun : program memory with
    | ok result next => exact (hensures.eq_ok hrun).1
    | error cause next => exact (hcontract.eq_error hrun).elim
  · intro hreachable
    refine hensures.imp ?_ fun _ _ hstopped => hstopped hreachable
    rintro result next ⟨-, rfl, rfl⟩
    exact ⟨hvalid hreachable, rfl, rfl⟩

theorem ensures_copyFromAddr {space : Space} (hformed : space.table.Formed)
    (addr : ℕ) (buf : List UInt8) (memory : Memory) :
    Ensures (copyFromAddr space addr buf) memory (fun result next =>
        (addr + 8 ≤ space.size ∧ Reachable space.table addr buf.length) ∧
        result = .ok (userBytes space.table memory addr buf.length) ∧
        next = memory) (fun _ _ =>
        ¬(addr + 8 ≤ space.size ∧ Reachable space.table addr buf.length)) := by
  unfold copyFromAddr
  split
  · next hsize =>
      intro hreachable
      omega
  · next hsize =>
      refine (ensures_copyIn buf addr (paged_of_formed hformed _ _) memory).imp ?_ ?_
      · rintro result next ⟨hreachable, hresult, hnext⟩
        exact ⟨⟨by omega, hreachable⟩, hresult, hnext⟩
      · intro cause next hinvalid hreachable
        exact hinvalid hreachable.2

theorem ensures_copyToKernel (hformed : table.Formed) (dst : List UInt8)
    (src : ℕ) (memory : Memory) :
    Ensures (copyToKernel table dst src) memory (fun result next => Reachable table src dst.length ∧
        result = .ok (userBytes table memory src dst.length) ∧ next = memory)
      (fun _ _ => ¬Reachable table src dst.length) := by
  refine (ensures_copyIn dst src (paged_of_formed hformed _ _) memory).bind ?_
  rintro result next ⟨hreachable, rfl, rfl⟩
  exact ⟨hreachable, rfl, rfl⟩

theorem ensures_copyFromKernel (hformed : table.Formed) (dst : ℕ)
    (src : List UInt8) (memory : Memory) :
    Ensures (copyFromKernel table dst src) memory
      (fun result next => Reachable table dst src.length ∧
        result = .ok () ∧ next = { memory with
          bytes := storeBytes table memory.bytes dst src })
      (fun _ _ => ¬Reachable table dst src.length) := by
  refine (ensures_copyOut dst src (paged_of_formed hformed _ _) memory).bind ?_
  rintro result next ⟨hreachable, -, rfl⟩
  exact ⟨hreachable, rfl, rfl⟩

/-- The five functions, called with any address and a buffer of any length,
neither panic nor miss a byte, and report exactly the invalid ranges. -/
structure Safe (space : Space) (memory : Memory) (addr : ℕ)
    (buffer : List UInt8) : Prop where
  copyOut : Contract (copyOut space.table addr buffer) memory
    (ValidRange space.table addr buffer.length) () { memory with
      bytes := storeBytes space.table memory.bytes addr buffer }
  copyIn : Contract (copyIn space.table buffer addr) memory
    (ValidRange space.table addr buffer.length)
    (userBytes space.table memory addr buffer.length) memory
  copyFromAddr : Contract (copyFromAddr space addr buffer) memory
    (ValidRange space.table addr buffer.length)
    (userBytes space.table memory addr buffer.length) memory
  copyToKernel : Contract (copyToKernel space.table buffer addr) memory
    (ValidRange space.table addr buffer.length)
    (userBytes space.table memory addr buffer.length) memory
  copyFromKernel : Contract (copyFromKernel space.table addr buffer) memory
    (ValidRange space.table addr buffer.length) () { memory with
      bytes := storeBytes space.table memory.bytes addr buffer }

/-- Each function meets its contract exactly on the ranges that are valid and,
for the sake of empty ones, start in a valid page; `copy_from_addr` only if
eight bytes from the address on are inside the process. -/
theorem safe_iff (space : Space) (hformed : space.table.Formed)
    (memory : Memory) (addr : ℕ) (buffer : List UInt8) :
    (Contract (copyOut space.table addr buffer) memory
        (ValidRange space.table addr buffer.length) () { memory with
          bytes := storeBytes space.table memory.bytes addr buffer } ↔
      Reachable space.table addr buffer.length) ∧
    (Contract (copyIn space.table buffer addr) memory (ValidRange space.table addr buffer.length)
        (userBytes space.table memory addr buffer.length) memory ↔
      Reachable space.table addr buffer.length) ∧
    (Contract (copyFromAddr space addr buffer) memory (ValidRange space.table addr buffer.length)
        (userBytes space.table memory addr buffer.length) memory ↔
      addr + 8 ≤ space.size ∧ Reachable space.table addr buffer.length) ∧
    (Contract (copyToKernel space.table buffer addr) memory
        (ValidRange space.table addr buffer.length)
        (userBytes space.table memory addr buffer.length) memory ↔
      Reachable space.table addr buffer.length) ∧
    (Contract (copyFromKernel space.table addr buffer) memory
        (ValidRange space.table addr buffer.length) () { memory with
          bytes := storeBytes space.table memory.bytes addr buffer } ↔
      Reachable space.table addr buffer.length) ∧
    (Safe space memory addr buffer ↔
      addr + 8 ≤ space.size ∧ Reachable space.table addr buffer.length) := by
  have hrange : Reachable space.table addr buffer.length →
      ValidRange space.table addr buffer.length := fun hreachable => (reachable_iff.mp hreachable).2
  have hout := contract_iff hrange
    (ensures_copyOut addr buffer (paged_of_formed hformed _ _) memory)
  have hin := contract_iff hrange (ensures_copyIn buffer addr (paged_of_formed hformed _ _) memory)
  have haddr := contract_iff (fun hboth => hrange hboth.2)
    (ensures_copyFromAddr hformed addr buffer memory)
  have hto := contract_iff hrange (ensures_copyToKernel hformed buffer addr memory)
  have hfrom := contract_iff hrange (ensures_copyFromKernel hformed addr buffer memory)
  refine ⟨hout, hin, haddr, hto, hfrom, ?_⟩
  constructor
  · intro hsafe
    exact haddr.mp hsafe.copyFromAddr
  · intro hboth
    exact ⟨hout.mpr hboth.2, hin.mpr hboth.2, haddr.mpr hboth, hto.mpr hboth.2, hfrom.mpr hboth.2⟩

/-! ## A small address space -/

def onePage : Table := .single 0 (Pte.permRWXU.withPerm 3)

theorem formed_onePage : onePage.Formed := Table.formed_single _ _

def blank : Memory where
  free := []
  count := fun _ => 0
  bytes := fun _ _ => 0
  spaces := fun _ => none
  kernel := fun _ => none

/-- A process of one page that passes the address of its first word. -/
theorem safe_onePage : Safe ⟨4096, 0, none, onePage⟩ blank 0 (List.replicate 8 0) := by
  refine (safe_iff ⟨4096, 0, none, onePage⟩ formed_onePage blank 0
    (List.replicate 8 0)).2.2.2.2.2.mpr ⟨by decide, ?_⟩
  intro offset hoffset
  have hpage : onePage.userPage 0 = some 3 := by decide
  rw [userFrame_add rfl hpage (lt_trans hoffset (by decide))]
  rfl

/-- A pointer to a page that is not mapped brings the kernel down. -/
theorem not_safe_unmapped :
    ¬∀ (space : Space) (_ : space.table.Formed) (memory : Memory) (addr : ℕ)
      (buffer : List UInt8), Safe space memory addr buffer := by
  intro hsafe
  have hcontract := (hsafe ⟨4096, 0, none, onePage⟩ formed_onePage blank 8192 [0]).copyIn
  have hreachable := (contract_iff (fun hreachable => (reachable_iff.mp hreachable).2)
    (ensures_copyIn [0] 8192 (paged_of_formed formed_onePage _ _) blank)).mp hcontract
  exact absurd (hreachable 0 (by decide)) (by decide)

end RxOs.UserCopy
