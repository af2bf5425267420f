import RxOs.Memory.UserCopy

/-!
# Copies across pages

`copy_out`, `copy_in` and `copy_in_str` on ranges of user memory that are
mapped, in any table: the frames of the range need not be contiguous, and its
ends may lie anywhere in their pages.  The first two copy exactly the range.
`copy_in_str` takes the whole rest of a page as its source, so a string without
an end in the buffer is copied only if the buffer ends with a page.
-/

namespace RxOs.PageCopies

open Function Exec PageTable Frames UserCopy

/-! ## Mapped ranges -/

/-- Every page that a range touches is a valid user page: the walk for it ends
in the last level, at a valid entry with the user bit. -/
structure Mapped (table : Table) (addr length : ℕ) : Prop where
  walked : ∀ offset < length, table.lookup (pageRoundDown (addr + offset)) =
      some (slot (pageRoundDown (addr + offset)))
  valid : ValidRange table addr length

variable {table : Table} {addr length : ℕ}

theorem Mapped.paged (hmapped : Mapped table addr length) : Paged table table addr length := by
  intro offset hoffset
  have hvalid := hmapped.valid offset hoffset
  unfold userFrame Table.userPage at hvalid ⊢
  split at hvalid
  · next huser =>
      unfold Table.pgtTranslate
      rw [if_neg (Nat.not_lt.mpr huser.1), hmapped.walked offset hoffset, if_pos huser]
      change (if (table.leaf _).v && (table.leaf _).u then
        some (table.leaf _).ppn else none) = _
      rw [huser.2.1, huser.2.2]
      rfl
  · cases hvalid

theorem Mapped.mono {less : ℕ} (hmapped : Mapped table addr length)
    (hless : less ≤ length) : Mapped table addr less :=
  ⟨fun offset hoffset => hmapped.walked offset (lt_of_lt_of_le hoffset hless),
    fun offset hoffset => hmapped.valid offset (lt_of_lt_of_le hoffset hless)⟩

/-- The pages of the range have frames of their own. -/
structure Spread (table : Table) (addr length : ℕ) : Prop
    extends Mapped table addr length where
  distinct : ∀ left < length, ∀ right < length,
    userFrame table (addr + left) = userFrame table (addr + right) →
      pageRoundDown (addr + left) = pageRoundDown (addr + right)

def At (table : Table) (va frame position : ℕ) : Prop :=
  userFrame table va = some frame ∧ va % pgSize = position

/-- Different addresses of the range are kept at different places. -/
theorem Spread.at_inj (hspread : Spread table addr length)
    {left right frame position : ℕ} (hleft : left < length)
    (hright : right < length) (hplace : At table (addr + left) frame position)
    (hother : At table (addr + right) frame position) : left = right := by
  have hpage := hspread.distinct left hleft right hright (hplace.1.trans hother.1.symm)
  have hposition := hplace.2.trans hother.2.symm
  unfold pageRoundDown at hpage
  have hsum := Nat.div_add_mod (addr + left) pgSize
  have hsum' := Nat.div_add_mod (addr + right) pgSize
  rw [Nat.mul_comm] at hsum hsum'
  omega

/-! ## Bytes stored and read back -/

/-- A place of the range has the byte of the source. -/
theorem Spread.storeBytes_at (bytes : ℕ → ℕ → UInt8) {src : List UInt8}
    (hspread : Spread table addr src.length) {offset frame position : ℕ}
    (hoffset : offset < src.length) (hplace : At table (addr + offset) frame position) :
    storeBytes table bytes addr src frame position = src.getD offset 0 := by
  obtain ⟨hframe, rfl⟩ := hplace
  rw [List.getD_eq_getElem _ _ hoffset]
  refine UserCopy.storeBytes_at hoffset hframe fun other hother htarget heq => ?_
  exact hspread.at_inj hother hoffset ⟨htarget, heq⟩ ⟨hframe, rfl⟩

/-- Reading a range after writing it gives what was written. -/
theorem userBytes_storeBytes (memory : Memory) (src : List UInt8)
    (hspread : Spread table addr src.length) :
    userBytes table { memory with
      bytes := storeBytes table memory.bytes addr src } addr src.length =
      src := by
  apply List.ext_getElem
  · rw [userBytes, List.length_map, List.length_range]
  · intro offset _ hoffset
    obtain ⟨frame, hframe⟩ := Option.isSome_iff_exists.mp (hspread.valid offset hoffset)
    have hstored := hspread.storeBytes_at memory.bytes hoffset ⟨hframe, rfl⟩
    rw [List.getD_eq_getElem _ _ hoffset] at hstored
    simp only [userBytes, List.getElem_map, List.getElem_range, userByte,
      hframe, Option.map_some, Option.getD_some]
    exact hstored

/-- `copy_out` writes the string to its range and nothing else, `copy_in` reads
the range and changes nothing, and what was written is read back. -/
theorem copyOut_copyIn_exact (table : Table) (addr : ℕ) (src : List UInt8)
    (hsrc : src ≠ []) (hspread : Spread table addr src.length)
    (buffer : List UInt8) (hbuffer : buffer.length = src.length) (memory : Memory) :
    ∃ bytes, copyOut table addr src memory = .ok (.ok ()) { memory with bytes := bytes } ∧
      (∀ offset < src.length, ∀ frame position, At table (addr + offset) frame position →
          bytes frame position = src.getD offset 0) ∧ (∀ frame position,
        (∀ offset < src.length, ¬At table (addr + offset) frame position) →
          bytes frame position = memory.bytes frame position) ∧ copyIn table buffer addr memory =
        .ok (.ok (userBytes table memory addr src.length)) memory ∧
      copyIn table buffer addr { memory with bytes := bytes } =
        .ok (.ok src) { memory with bytes := bytes } := by
  have hlength : max src.length 1 = src.length := max_eq_left (List.length_pos_iff.mpr hsrc)
  have hreachable : Reachable table addr src.length := by
    rw [Reachable, hlength]
    exact hspread.valid
  have hpaged : Paged table table addr (max src.length 1) := by
    rw [hlength]
    exact hspread.paged
  have hin : ∀ memory, copyIn table buffer addr memory =
      .ok (.ok (userBytes table memory addr src.length)) memory := by
    intro memory
    have hcopy := ensures_copyIn buffer addr (by rw [hbuffer]; exact hpaged) memory
    rw [hbuffer] at hcopy
    obtain ⟨result, next, hrun, -, rfl, rfl⟩ := (hcopy.imp (fun _ _ hdone => hdone)
        fun _ _ hstopped => hstopped hreachable).exists_ok
    exact hrun
  obtain ⟨result, next, hrun, -, rfl, rfl⟩ :=
    ((ensures_copyOut addr src hpaged memory).imp (fun _ _ hdone => hdone)
      fun _ _ hstopped => hstopped hreachable).exists_ok
  refine ⟨_, hrun, ?_, ?_, hin memory, ?_⟩
  · intro offset hoffset frame position hplace
    exact hspread.storeBytes_at memory.bytes hoffset hplace
  · intro frame position haway
    exact storeBytes_of_ne fun offset hoffset htarget heq => haway offset hoffset ⟨htarget, heq⟩
  · rw [hin, userBytes_storeBytes memory src hspread]

/-- A table that maps the first two pages, the lower one higher up in memory. -/
def twoPages : Table :=
  (Table.single 0 (Pte.permRWXU.withPerm 7)).set (slot 4096) (Pte.permRWXU.withPerm 3)

theorem spread_twoPages : Spread twoPages 4094 4 where
  walked := by decide
  valid := by
    unfold ValidRange
    decide
  distinct := by decide

/-- Four bytes over the boundary of two pages. -/
theorem copyOut_copyIn_twoPages :
    ∃ bytes, copyOut twoPages 4094 [1, 2, 3, 4] blank = .ok (.ok ()) { blank with bytes := bytes } ∧
      copyIn twoPages [0, 0, 0, 0] 4094 { blank with bytes := bytes } =
        .ok (.ok [1, 2, 3, 4]) { blank with bytes := bytes } := by
  obtain ⟨bytes, hout, -, -, -, hin⟩ := copyOut_copyIn_exact twoPages 4094
    [1, 2, 3, 4] (by decide) spread_twoPages [0, 0, 0, 0] rfl blank
  exact ⟨bytes, hout, hin⟩

/-! ## Strings -/

/-- Source, length and destination of a turn of `copy_in_str`, cut behind the
first NUL of the source; the last part is what the cut takes off the
destination. -/
def cutAtNul (src : List UInt8) (count : ℕ) (dst : List UInt8) :
    MemM (List UInt8 × ℕ × List UInt8 × List UInt8) :=
  match src.findIdx? (· == 0) with
  | some endIdx =>
    if dst.length < endIdx + 1 then throw .sliceRange
    else return (src.take (endIdx + 1), endIdx + 1, dst.take (endIdx + 1), dst.drop (endIdx + 1))
  | none => return (src, count, dst, [])

/-- The loop of `copy_in_str`, at position `start` of page `pa`: the rest of the
buffer after the copy.  `copy_from_slice` wants slices of one length. -/
def copyInStrLoop (table : Table) :
    ℕ → ℕ → ℕ → ℕ → List UInt8 → MemM (List UInt8)
  | 0, _, _, _, dst => return dst
  | turns + 1, va, pa, start, dst => do
    let memory ← get
    let (src, count, dst, kept) ← cutAtNul (readPage memory.bytes pa start (pgSize - start))
      (min (pgSize - start) dst.length) dst
    if src.length ≠ count then throw .sliceLength
    else if (dst.drop count).isEmpty then return src ++ kept
    else do
      let pa ← unwrap (table.pgtTranslate (addPage va))
      let rest ← copyInStrLoop table turns (addPage va) pa 0 (dst.drop count)
      return src ++ rest ++ kept

/-- `PageTable::copy_in_str`: the buffer after the copy. -/
def copyInStr (table : Table) (dst : List UInt8) (src : ℕ) :
    MemM (Except String (List UInt8)) := do
  let pa ← unwrap (table.pgtTranslate (pageRoundDown src))
  let copied ← copyInStrLoop table (dst.length + 1) (pageRoundDown src) pa
    (src - pageRoundDown src) dst
  return .ok copied

/-- A string of which a buffer of `length` bytes needs the first `count`: up to
its NUL, or all that fit. -/
structure Needs (table : Table) (memory : Memory) (addr length count : ℕ) :
    Prop where
  pos : 0 < count
  le : count ≤ length
  valid : ValidRange table addr count
  nonzero : ∀ offset, offset + 1 < count → userByte table memory (addr + offset) ≠ some 0
  stop : count = length ∨ userByte table memory (addr + (count - 1)) = some 0

/-- The last byte that is needed is the NUL. -/
def Ends (table : Table) (memory : Memory) (addr count : ℕ) : Prop :=
  userByte table memory (addr + (count - 1)) = some 0

instance (table : Table) (memory : Memory) (addr count : ℕ) :
    Decidable (Ends table memory addr count) :=
  inferInstanceAs (Decidable (_ = _))

variable {walked : Table} {memory : Memory} {va pa start count : ℕ} {dst : List UInt8}

theorem length_readPage (bytes : ℕ → ℕ → UInt8) (frame start count : ℕ) :
    (readPage bytes frame start count).length = count := by
  rw [readPage, List.length_map, List.length_range]

theorem userByte_page (hva : va % pgSize = 0) (hframe : table.userPage va = some pa) {offset : ℕ}
    (hoffset : offset < pgSize - start) :
    userByte table memory (va + start + offset) =
      (readPage memory.bytes pa start (pgSize - start))[offset]? := by
  rw [userByte, Nat.add_assoc, userFrame_add hva hframe (by omega), readPage,
    List.getElem?_map, List.getElem?_range hoffset, Nat.add_mod, hva,
    Nat.zero_add, Nat.mod_mod, Nat.mod_eq_of_lt (by omega)]
  rfl

/-- The rest of a page has no NUL before the end of what is needed. -/
theorem Needs.findIdx_none (hneeds : Needs table memory (va + start) length count)
    (hva : va % pgSize = 0) (hframe : table.userPage va = some pa)
    (hcount : pgSize - start < count) :
    (readPage memory.bytes pa start (pgSize - start)).findIdx? (· == 0) =
      none := by
  rw [List.findIdx?_eq_none_iff]
  intro byte hbyte
  obtain ⟨offset, hoffset, rfl⟩ := List.getElem_of_mem hbyte
  rw [length_readPage] at hoffset
  have hnonzero := hneeds.nonzero offset (by omega)
  rw [userByte_page hva hframe hoffset, List.getElem?_eq_getElem] at hnonzero
  simpa using hnonzero

/-- If what is needed ends with a NUL in this page, that is the first NUL. -/
theorem Needs.findIdx_some (hneeds : Needs table memory (va + start) length count)
    (hva : va % pgSize = 0) (hframe : table.userPage va = some pa) (hcount : count ≤ pgSize - start)
    (hends : Ends table memory (va + start) count) :
    (readPage memory.bytes pa start (pgSize - start)).findIdx? (· == 0) = some (count - 1) := by
  have hpos := hneeds.pos
  rw [List.findIdx?_eq_some_iff_getElem]
  refine ⟨by rw [length_readPage]; omega, ?_, ?_⟩
  · rw [Ends, userByte_page hva hframe (by omega), List.getElem?_eq_getElem] at hends
    simpa using hends
  · intro offset hoffset
    have hnonzero := hneeds.nonzero offset (by omega)
    rw [userByte_page hva hframe (by omega), List.getElem?_eq_getElem] at hnonzero
    simpa using hnonzero

/-- A first NUL behind the buffer, where what is needed has none. -/
theorem Needs.length_le_findIdx (hneeds : Needs table memory (va + start) length count)
    (hva : va % pgSize = 0) (hframe : table.userPage va = some pa)
    (hends : ¬Ends table memory (va + start) count) {endIdx : ℕ}
    (hfound : (readPage memory.bytes pa start (pgSize - start)).findIdx? (· == 0) = some endIdx) :
    count = length ∧ length ≤ endIdx ∧ endIdx < pgSize - start := by
  obtain ⟨hlt, hzero, -⟩ := List.findIdx?_eq_some_iff_getElem.mp hfound
  rw [length_readPage] at hlt
  have hcount : count = length := hneeds.stop.resolve_right hends
  have hbyte : userByte table memory (va + start + endIdx) = some 0 := by
    rw [userByte_page hva hframe hlt, List.getElem?_eq_getElem]
    simpa using hzero
  refine ⟨hcount, ?_, hlt⟩
  by_contra hbefore
  by_cases hlast : endIdx + 1 < count
  · exact hneeds.nonzero endIdx hlast hbyte
  · apply hends
    rwa [Ends, show count - 1 = endIdx by omega]

/-- What is needed of a string behind its first page. -/
theorem Needs.next (hneeds : Needs table memory (va + start) length count)
    (hcount : pgSize - start < count) (hstart : start < pgSize) :
    Needs table memory (addPage va) (length - (pgSize - start)) (count - (pgSize - start)) ∧
      (Ends table memory (addPage va) (count - (pgSize - start)) ↔
        Ends table memory (va + start) count) := by
  have hshift : ∀ offset, addPage va + offset = va + start + (pgSize - start + offset) := by
    intro offset
    rw [addPage]
    omega
  have hlast : addPage va + (count - (pgSize - start) - 1) = va + start + (count - 1) := by
    rw [addPage]
    omega
  have hle := hneeds.le
  constructor
  · constructor
    · omega
    · omega
    · intro offset hoffset
      rw [hshift]
      exact hneeds.valid _ (by omega)
    · intro offset hoffset
      rw [hshift]
      exact hneeds.nonzero _ (by omega)
    · rw [hlast]
      exact hneeds.stop.imp (by omega) id
  · rw [Ends, Ends, hlast]

theorem take_readPage (bytes : ℕ → ℕ → UInt8) (frame start : ℕ)
    {count whole : ℕ} (hcount : count ≤ whole) :
    (readPage bytes frame start whole).take count = readPage bytes frame start count := by
  rw [readPage, ← List.map_take, List.take_range, min_eq_left hcount, readPage]

/-- The string ends in the buffer, or the buffer ends with a page. -/
def Fits (table : Table) (memory : Memory) (addr length count : ℕ) : Prop :=
  Ends table memory addr count ∨ (addr + length) % pgSize = 0

/-- The turn of the page where what is needed ends. -/
theorem ensures_copyInStrLoop_last (turns : ℕ)
    (hneeds : Needs table memory (va + start) dst.length count)
    (hva : va % pgSize = 0) (hframe : table.userPage va = some pa)
    (hcount : count ≤ pgSize - start) :
    Ensures (copyInStrLoop walked (turns + 1) va pa start dst) memory
      (fun copied next => Fits table memory (va + start) dst.length count ∧
        copied = userBytes table memory (va + start) count ++ dst.drop count ∧
        next = memory) (fun _ _ => ¬Fits table memory (va + start) dst.length count) := by
  have hpos := hneeds.pos
  have hle := hneeds.le
  have hbytes := userBytes_eq_readPage hva hframe memory (show start + count ≤ pgSize by omega)
  simp only [copyInStrLoop, ensures_bind, ensures_get, cutAtNul]
  by_cases hends : Ends table memory (va + start) count
  · rw [hneeds.findIdx_some hva hframe hcount hends]
    have hsub : count - 1 + 1 = count := by omega
    simp only [hsub, if_neg (Nat.not_lt.mpr hle), ensures_pure]
    rw [take_readPage _ _ _ hcount, length_readPage, if_neg (not_not.mpr rfl), List.drop_take_self]
    exact ⟨.inl hends, by rw [hbytes], rfl⟩
  · have hmod : (va + start + dst.length) % pgSize = 0 ↔ dst.length = pgSize - start := by
      have hwhole := hneeds.stop.resolve_right hends
      change va % 4096 = 0 at hva
      change count ≤ 4096 - start at hcount
      change (va + start + dst.length) % 4096 = 0 ↔ dst.length = 4096 - start
      omega
    cases hfound : (readPage memory.bytes pa start (pgSize - start)).findIdx? (· == 0) with
    | some endIdx =>
      obtain ⟨-, hbehind, hlt⟩ := hneeds.length_le_findIdx hva hframe hends hfound
      simp only [if_pos (Nat.lt_succ_of_le hbehind), ensures_throw]
      rintro (hends' | hpage)
      · exact hends hends'
      · rw [hmod] at hpage
        omega
    | none =>
      have hwhole := hneeds.stop.resolve_right hends
      simp only [ensures_pure, length_readPage]
      by_cases hfull : dst.length = pgSize - start
      · rw [hfull, min_self, if_neg (not_not.mpr rfl), ← hfull, List.drop_length]
        refine ⟨.inr (hmod.mpr hfull), ?_, rfl⟩
        rw [hwhole, hfull] at hbytes
        rw [hwhole, hfull, hbytes, ← hfull, List.drop_length]
      · rw [if_pos (by omega)]
        rintro (hends' | hpage)
        · exact hends hends'
        · exact hfull (hmod.mp hpage)

/-- `copy_in_str` copies what is needed of the string, or panics if the buffer
ends in the middle of a page before the string does. -/
theorem ensures_copyInStrLoop (turns : ℕ) (hturns : dst.length < turns)
    (hneeds : Needs table memory (va + start) dst.length count)
    (hpaged : Paged walked table (va + start) count) (hva : va % pgSize = 0)
    (hframe : table.userPage va = some pa) (hstart : start < pgSize) :
    Ensures (copyInStrLoop walked turns va pa start dst) memory
      (fun copied next => Fits table memory (va + start) dst.length count ∧
        copied = userBytes table memory (va + start) count ++ dst.drop count ∧
        next = memory) (fun _ _ => ¬Fits table memory (va + start) dst.length count) := by
  induction turns generalizing va pa start dst count with
  | zero => omega
  | succ turns ih =>
    by_cases hlast : count ≤ pgSize - start
    · exact ensures_copyInStrLoop_last turns hneeds hva hframe hlast
    · rw [Nat.not_le] at hlast
      have hle := hneeds.le
      obtain ⟨hwalk, hpaged⟩ := hpaged.next hva hstart hlast
      obtain ⟨hrest, hends⟩ := hneeds.next hlast hstart
      have hdrop : ¬(dst.drop (pgSize - start)).isEmpty = true := by
        rw [List.isEmpty_iff, List.drop_eq_nil_iff]
        omega
      simp only [copyInStrLoop, ensures_bind, ensures_get, cutAtNul,
        hneeds.findIdx_none hva hframe hlast, ensures_pure, length_readPage]
      rw [min_eq_left (by omega), if_neg (not_not.mpr rfl), if_neg hdrop, hwalk]
      have hsome := hrest.valid 0 hrest.pos
      rw [Nat.add_zero, userFrame, pageRoundDown_addPage hva] at hsome
      cases hframe' : table.userPage (addPage va) with
      | none =>
        rw [hframe'] at hsome
        cases hsome
      | some pa' =>
        have hloop := ih (show (dst.drop (pgSize - start)).length < turns by
            rw [List.length_drop]
            omega)
          (by rw [Nat.add_zero, List.length_drop]; exact hrest)
          (by rw [Nat.add_zero]; exact hpaged)
          (by rw [addPage, Nat.add_mod_right, hva]) hframe' (by decide)
        rw [Nat.add_zero, List.length_drop, List.drop_drop] at hloop
        have hfits : Fits table memory (addPage va)
            (dst.length - (pgSize - start)) (count - (pgSize - start)) ↔
            Fits table memory (va + start) dst.length count := by
          rw [Fits, Fits, hends, show addPage va +
            (dst.length - (pgSize - start)) = va + start + dst.length by
              rw [addPage]
              omega]
        change Ensures (copyInStrLoop walked turns (addPage va) pa' 0 _ >>=
          fun rest => pure _) _ _ _
        refine ensures_bind.mpr (hloop.imp ?_ ?_)
        · rintro copied next ⟨hfit, rfl, rfl⟩
          refine ⟨hfits.mp hfit, ?_, rfl⟩
          have hfirst := userBytes_eq_readPage hva hframe next
            (show start + (pgSize - start) ≤ pgSize by omega)
          have hsplit := userBytes_add table next (va + start)
            (pgSize - start) (count - (pgSize - start))
          rw [Nat.add_sub_cancel' hlast.le, hfirst,
            show va + start + (pgSize - start) = addPage va by
              rw [addPage]
              omega] at hsplit
          rw [hsplit, List.append_nil, List.append_assoc, Nat.add_sub_cancel' hlast.le]
        · intro cause next hmisfit hfit
          exact hmisfit (hfits.mpr hfit)

theorem ensures_copyInStr (hneeds : Needs table memory addr dst.length count)
    (hpaged : Paged walked table addr count) :
    Ensures (copyInStr walked dst addr) memory
      (fun result next => Fits table memory addr dst.length count ∧
        result = .ok (userBytes table memory addr count ++ dst.drop count) ∧
        next = memory) (fun _ _ => ¬Fits table memory addr dst.length count) := by
  obtain ⟨hsum, hlt⟩ := pageRoundDown_add_sub addr
  have hsome := hneeds.valid 0 hneeds.pos
  rw [Nat.add_zero, userFrame] at hsome
  simp only [copyInStr, ensures_bind, hpaged.first hneeds.pos]
  cases hframe : table.userPage (pageRoundDown addr) with
  | none =>
    rw [hframe] at hsome
    cases hsome
  | some pa =>
    have hloop := ensures_copyInStrLoop (dst.length + 1)
      (Nat.lt_succ_self _) (by rw [hsum]; exact hneeds)
      (by rw [hsum]; exact hpaged) (pageRoundDown_mod addr) hframe hlt
    rw [hsum] at hloop
    apply hloop.imp_returned
    rintro copied next ⟨hfits, rfl, rfl⟩
    exact ⟨hfits, rfl, rfl⟩

/-- What the callers of `copy_in_str` rely on: it returns, with the string and
its NUL at the front of the buffer if they fit, and with an error or a full
buffer otherwise.  The pages behind the last byte that it needs are not read:
they may be mapped in any way or not at all. -/
def Fetches (table : Table) (memory : Memory) (dst : List UInt8) (addr count : ℕ) : Prop :=
  ∀ walked : Table, (∀ page ≤ pageRoundDown (addr + (count - 1)),
      walked.pgtTranslate page = table.pgtTranslate page) →
    ∃ result, copyInStr walked dst addr memory = .ok result memory ∧ (Ends table memory addr count →
        result = .ok (userBytes table memory addr count ++ dst.drop count)) ∧
      (¬Ends table memory addr count → (∃ message, result = .error message) ∨
          result = .ok (userBytes table memory addr dst.length))

/-- `copy_in_str` does its work exactly if the string ends within the buffer or
the buffer ends with a page of the user's; it panics otherwise. -/
theorem copyInStr_iff (table : Table) (memory : Memory) (dst : List UInt8)
    (addr count : ℕ) (hmapped : Mapped table addr count)
    (hneeds : Needs table memory addr dst.length count) :
    Fetches table memory dst addr count ↔
      Ends table memory addr count ∨ (addr + dst.length) % pgSize = 0 := by
  constructor
  · intro hfetches
    obtain ⟨result, hrun, -⟩ := hfetches table fun _ _ => rfl
    exact ((ensures_copyInStr hneeds hmapped.paged).eq_ok hrun).1
  · intro hfits walked hsame
    have hpaged : Paged walked table addr count := by
      intro offset hoffset
      rw [← hmapped.paged offset hoffset]
      apply hsame
      exact Nat.mul_le_mul_right _ (Nat.div_le_div_right (by omega))
    obtain ⟨result, next, hrun, -, rfl, rfl⟩ :=
      ((ensures_copyInStr hneeds hpaged).imp (fun _ _ hdone => hdone)
        fun _ _ hstopped => hstopped hfits).exists_ok
    refine ⟨_, hrun, fun _ => rfl, ?_⟩
    intro hends
    right
    rw [hneeds.stop.resolve_right hends, List.drop_length, List.append_nil]

def letters : Memory :=
  { blank with bytes := fun frame _ => if frame = 7 then 104 else 0 }

theorem needs_letters : Needs twoPages letters 4094 8 3 where
  pos := by decide
  le := by decide
  valid := (spread_twoPages.toMapped.mono (by decide)).valid
  nonzero := by
    have hletters : ∀ offset < 2, userByte twoPages letters (4094 + offset) ≠ some 0 := by decide
    intro offset hoffset
    exact hletters offset (by omega)
  stop := .inr (by decide)

/-- Two letters at the end of a page and the NUL in the next one. -/
theorem copyInStr_letters : Fetches twoPages letters (List.replicate 8 1) 4094 3 :=
  (copyInStr_iff twoPages letters (List.replicate 8 1) 4094 3
    (spread_twoPages.toMapped.mono (by decide)) needs_letters).mpr (.inl (by decide))

/-- One letter, for a buffer of one byte, brings the kernel down. -/
theorem not_copyInStr_short :
    ¬∀ (table : Table) (memory : Memory) (dst : List UInt8) (addr count : ℕ),
      Mapped table addr count → Needs table memory addr dst.length count →
        Fetches table memory dst addr count := by
  intro hall
  have hmapped : Mapped twoPages 4094 1 := spread_twoPages.toMapped.mono (by decide)
  have hneeds : Needs twoPages letters 4094 1 1 :=
    ⟨by decide, by decide, hmapped.valid, by omega, .inl rfl⟩
  obtain ⟨result, hrun, -⟩ :=
    hall twoPages letters [0] 4094 1 hmapped hneeds twoPages fun _ _ => rfl
  have hfits : Fits twoPages letters 4094 1 1 :=
    ((ensures_copyInStr hneeds hmapped.paged).eq_ok hrun).1
  exact absurd hfits (by unfold Fits; decide)

end RxOs.PageCopies
