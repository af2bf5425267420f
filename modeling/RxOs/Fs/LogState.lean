import RxOs.Fs.Params

/-!
# The log in memory

`Log` is the state behind the `LOG` mutex: the place of the log area on disk,
the number of file-system calls in progress and the header with the block
numbers of the current group.  The functions here are the critical sections of
`begin_op`, `Log::write` and `end_op`; the disk traffic of a commit is in
`RxOs.LogCommit`.
-/

namespace RxOs.LogState

open ByteView Params

/-- The log header; only the first `len` block numbers are meaningful. -/
structure LogHeader where
  len : ℕ
  blocknos : Fin (logSize - 1) → UInt32

/-- `len` fields of the header point at these blocks. -/
def LogHeader.logged (lh : LogHeader) : List UInt32 :=
  (List.ofFn lh.blocknos).take lh.len

/-- `blocknos[index]`, with the bounds check of the source. -/
def LogHeader.blockno (lh : LogHeader) (index : ℕ) : Except Panic UInt32 :=
  if h : index < logSize - 1 then .ok (lh.blocknos ⟨index, h⟩)
  else .error .indexOutOfBounds

/-- `blocknos[len] = blockno; len += 1`. -/
def LogHeader.push (lh : LogHeader) (blockno : UInt32) : LogHeader where
  len := lh.len + 1
  blocknos := fun index =>
    if index.val = lh.len then blockno else lh.blocknos index

theorem LogHeader.length_logged (lh : LogHeader) (hlen : lh.len ≤ logSize - 1) :
    lh.logged.length = lh.len := by simpa [LogHeader.logged] using hlen

theorem LogHeader.getElem_logged (lh : LogHeader) (index : ℕ) (hindex : index < lh.logged.length) :
    lh.logged[index] = lh.blocknos ⟨index, by
      have : index < lh.len ∧ index < logSize - 1 := by simpa [LogHeader.logged] using hindex
      exact this.2⟩ := by simp [LogHeader.logged]

theorem LogHeader.logged_push (lh : LogHeader) (blockno : UInt32) (hlen : lh.len < logSize - 1) :
    (lh.push blockno).logged = lh.logged ++ [blockno] := by
  have hold : lh.logged.length = lh.len := lh.length_logged hlen.le
  have hnew : (lh.push blockno).logged.length = lh.len + 1 :=
    (lh.push blockno).length_logged (show lh.len + 1 ≤ logSize - 1 by omega)
  apply List.ext_getElem
  · simp [hold, hnew]
  · intro index hleft hright
    rw [LogHeader.getElem_logged]
    by_cases hlast : index = lh.len
    · subst hlast
      simp [LogHeader.push, hold]
    · have hindex : index < lh.logged.length := by omega
      rw [List.getElem_append_left hindex, LogHeader.getElem_logged]
      simp [LogHeader.push, hlast]

/-- Home block number of the `i`-th log block, counted from one. -/
def LogHeader.home (lh : LogHeader) (i : ℕ) : ℕ :=
  if h : i - 1 < logSize - 1 then (lh.blocknos ⟨i - 1, h⟩).toNat else 0

def LogHeader.homes (lh : LogHeader) : List ℕ :=
  (List.range' 1 lh.len).map lh.home

theorem LogHeader.homes_eq_logged (lh : LogHeader) (hlen : lh.len ≤ logSize - 1) :
    lh.homes = lh.logged.map UInt32.toNat := by
  apply List.ext_getElem
  · simp [LogHeader.homes, lh.length_logged hlen]
  · intro index hleft hright
    have hindex : index < lh.len := by simpa [LogHeader.homes] using hleft
    have hbound : index < logSize - 1 := by omega
    rw [List.getElem_map, LogHeader.getElem_logged]
    simp [LogHeader.homes, LogHeader.home, hbound]

/-! ## The header block -/

/-- The words of the `repr(C)` header: `len` and then the block numbers. -/
def LogHeader.word (lh : LogHeader) (index : ℕ) : UInt32 :=
  if index = 0 then UInt32.ofNat lh.len
  else if h : index - 1 < logSize - 1 then lh.blocknos ⟨index - 1, h⟩ else 0

/-- `copy_nonoverlapping` of the header onto the front of a block. -/
def LogHeader.encode (lh : LogHeader) (block : Block) : Block :=
  writeU32s block 0 logSize lh.word

/-- `copy_nonoverlapping` of the front of a block into a header. -/
def LogHeader.decode (block : Block) : LogHeader where
  len := (u32At block 0).toNat
  blocknos := fun index => u32At block (4 + 4 * index.val)

theorem LogHeader.decode_encode (lh : LogHeader) (block : Block) (hlen : lh.len < logSize) :
    LogHeader.decode (lh.encode block) = lh := by
  have hword : ∀ index < logSize, u32At (lh.encode block) (0 + 4 * index) = lh.word index := by
    intro index hindex
    exact u32At_writeU32s block lh.word index (by decide) hindex
  have hzero : u32At (lh.encode block) 0 = UInt32.ofNat lh.len := hword 0 (by decide)
  have hbound : lh.len < 2 ^ 32 := lt_trans hlen (by decide)
  cases lh with
  | mk len blocknos =>
    simp only [LogHeader.decode, LogHeader.mk.injEq]
    constructor
    · rw [hzero, UInt32.toNat_ofNat']
      exact Nat.mod_eq_of_lt hbound
    · funext index
      have hindex := hword (index.val + 1) (by have := index.isLt; omega)
      rw [show 4 + 4 * index.val = 0 + 4 * (index.val + 1) by ring, hindex]
      simp [LogHeader.word]

/-! ## Critical sections of the log -/

structure Log where
  start : ℕ
  size : ℕ
  outstanding : ℕ
  commiting : Bool
  lh : LogHeader

/-- `Log::begin_op`: `none` when the caller has to sleep. -/
def Log.beginOp (log : Log) : Option Log :=
  if log.commiting ∨ 1 + log.lh.len + (log.outstanding + 1) * maxOpBlocks > logSize then none
  else some { log with outstanding := log.outstanding + 1 }

/-- `Log::write` on the buffer of block `blockno`. -/
def Log.write (log : Log) (blockno : UInt32) : Except Panic Log :=
  if log.lh.len + 1 ≥ logSize ∨ log.lh.len + 1 ≥ log.size then
    .error .logFullOngoing
  else if log.outstanding < 1 then .error .logOutOfRecording
  else if blockno ∈ log.lh.logged then .ok log
  else if log.lh.len + 2 ≥ logSize ∨ log.lh.len + 2 ≥ log.size then
    .error .logFullTransaction
  else .ok { log with lh := log.lh.push blockno }

/-- The first critical section of `Log::end_op`: the flag says whether the
caller has to commit. -/
def Log.endOp (log : Log) : Except Panic (Bool × Log) :=
  if log.outstanding = 0 then .error .subtractOverflow
  else if log.commiting then .error .logEndWhileCommitting
  else if log.outstanding - 1 = 0 then
    .ok (true, { log with outstanding := 0, commiting := true })
  else .ok (false, { log with outstanding := log.outstanding - 1 })

/-- The header after `empty_head` has cleared its length. -/
def Log.emptied (log : Log) : Log :=
  { log with lh := { log.lh with len := 0 } }

theorem Log.beginOp_eq_some {log next : Log} (hbegin : log.beginOp = some next) :
    log.commiting = false ∧ 1 + log.lh.len + (log.outstanding + 1) * maxOpBlocks ≤ logSize ∧
      next = { log with outstanding := log.outstanding + 1 } := by
  unfold Log.beginOp at hbegin
  split at hbegin
  · simp at hbegin
  · next hguard =>
      rw [not_or] at hguard
      refine ⟨by simpa using hguard.1, by omega, ?_⟩
      simpa using hbegin.symm

/-- What a successful `Log::write` can do: absorb a block that is logged
already, or append a new one within both capacity checks. -/
theorem Log.write_eq_ok {log next : Log} {blockno : UInt32}
    (hwrite : log.write blockno = .ok next) :
    0 < log.outstanding ∧ ((blockno ∈ log.lh.logged ∧ next = log) ∨
        (blockno ∉ log.lh.logged ∧ log.lh.len + 2 < logSize ∧ log.lh.len + 2 < log.size ∧
          next = { log with lh := log.lh.push blockno })) := by
  unfold Log.write at hwrite
  split at hwrite
  · simp at hwrite
  · split at hwrite
    · simp at hwrite
    · next hopen =>
        refine ⟨by omega, ?_⟩
        split at hwrite
        · next hmem =>
            left
            exact ⟨hmem, by simpa using hwrite.symm⟩
        · next hmem =>
            split at hwrite
            · simp at hwrite
            · next hroom =>
                right
                rw [not_or] at hroom
                exact ⟨hmem, by omega, by omega, by simpa using hwrite.symm⟩

theorem Log.endOp_eq_ok {log next : Log} {commits : Bool} (hend : log.endOp = .ok (commits, next)) :
    0 < log.outstanding ∧ log.commiting = false ∧ ((commits = true ∧ log.outstanding = 1 ∧
          next = { log with outstanding := 0, commiting := true }) ∨
        (commits = false ∧ 1 < log.outstanding ∧
          next = { log with outstanding := log.outstanding - 1 })) := by
  unfold Log.endOp at hend
  split at hend
  · simp at hend
  · next hopen =>
      split at hend
      · simp at hend
      · next hidle =>
          refine ⟨by omega, by simpa using hidle, ?_⟩
          split at hend
          · next hlast =>
              left
              simp only [Except.ok.injEq, Prod.mk.injEq] at hend
              exact ⟨hend.1.symm, by omega, hend.2.symm⟩
          · next hlast =>
              right
              simp only [Except.ok.injEq, Prod.mk.injEq] at hend
              exact ⟨hend.1.symm, by omega, hend.2.symm⟩

end RxOs.LogState
