import RxOs.Fs.LogCommit

/-!
# Crash atomicity of the log

A crash stops the machine after any prefix of its block writes and loses every
buffer.  Between two crashes the disk is in one of three phases: the header is
empty and the home blocks are those from before the group; the header names
the group and the log holds its contents; or the header is empty again and the
home blocks are those from after the group.  Every prefix of a commit and of a
recovery stays within these phases, and a completed recovery leaves one of the
two outer ones.
-/

namespace RxOs.LogCrash

open Function ByteView WriteTrace Params LogState Buffers LogCommit

/-- The blocks `[start, start + nlog)` that the superblock gives to the log. -/
structure LogArea where
  start : ℕ
  nlog : ℕ

def LogArea.Contains (area : LogArea) (blockno : ℕ) : Prop :=
  area.start ≤ blockno ∧ blockno < area.start + area.nlog

/-- `Log::unint` once `Log::init` has filled in the place of the log. -/
def LogArea.log (area : LogArea) : Log where
  start := area.start
  size := area.nlog
  outstanding := 0
  commiting := false
  lh := { len := 0, blocknos := fun _ => 0 }

/-- `Log::init` on a machine that has just been powered on. -/
def init (area : LogArea) (disk : ℕ → Block) : Except Panic LoggedDisk :=
  LoggedDisk.recover { log := area.log, bufs := BufferedDisk.boot disk }

/-- A boot as recovery sees it: the block writes and the running system. -/
def bootTrace (area : LogArea) (disk : ℕ → Block) : Option (List (ℕ × Block) × LoggedDisk) :=
  match init area disk with
  | .ok state => some (state.bufs.writes, state)
  | .error _ => none

/-- A header that the log area has room for and whose home blocks lie outside
the log area. -/
structure Fits (lh : LogHeader) (area : LogArea) : Prop where
  capacity : lh.len ≤ logSize - 1
  room : ∀ i ∈ List.range' 1 lh.len, i < area.nlog
  outside : ∀ home ∈ lh.homes, ¬area.Contains home
  distinct : lh.homes.Nodup

/-- The header is empty and the home blocks hold `contents`. -/
def Quiet (area : LogArea) (contents disk : ℕ → Block) : Prop :=
  (LogHeader.decode (disk area.start)).len = 0 ∧
    ∀ blockno, ¬area.Contains blockno → disk blockno = contents blockno

/-- The header names a group whose contents are in the log; only home blocks
of the group may still differ from `contents`. -/
structure Logged (area : LogArea) (lh : LogHeader) (contents disk : ℕ → Block) :
    Prop where
  header : LogHeader.decode (disk area.start) = lh
  copies : ∀ i ∈ List.range' 1 lh.len, disk (area.start + i) = contents (lh.home i)
  others : ∀ blockno, ¬area.Contains blockno → blockno ∉ lh.homes → disk blockno = contents blockno

def recoveryWrites (area : LogArea) (lh : LogHeader) (disk : ℕ → Block) : List (ℕ × Block) :=
  (List.range' 1 lh.len).map (fun i => (lh.home i, disk (area.start + i))) ++
    [(area.start, writeU32 (disk area.start) 0 0)]

variable {area : LogArea} {lh : LogHeader} {contents disk : ℕ → Block}

theorem mem_homes_iff {blockno : ℕ} :
    blockno ∈ lh.homes ↔ ∃ i ∈ List.range' 1 lh.len, lh.home i = blockno := by
  simp [LogHeader.homes]

theorem Fits.logBlock_contains (hfits : Fits lh area) {i : ℕ}
    (hi : i ∈ List.range' 1 lh.len) : area.Contains (area.start + i) := by
  have hroom := hfits.room i hi
  constructor <;> omega

theorem Fits.start_contains (hfits : Fits lh area) (hlen : 0 < lh.len) :
    area.Contains area.start := by
  have hroom := hfits.room 1 (by simp; omega)
  constructor <;> omega

theorem Fits.home_ne (hfits : Fits lh area) {i : ℕ} (hi : i ∈ List.range' 1 lh.len) {blockno : ℕ}
    (hblockno : area.Contains blockno) : lh.home i ≠ blockno := by
  intro heq
  exact hfits.outside (lh.home i) (mem_homes_iff.mpr ⟨i, hi, rfl⟩) (heq ▸ hblockno)

theorem len_decode_writeU32 (block : Block) : (LogHeader.decode (writeU32 block 0 0)).len = 0 := by
  rw [LogHeader.decode, u32At_writeU32 block 0 (by decide)]
  rfl

/-- Installing any part of the group keeps the phase: the header and the log
blocks are outside the home blocks. -/
theorem Logged.install (hfits : Fits lh area) (hlen : 0 < lh.len)
    (hlogged : Logged area lh contents disk) {writes : List (ℕ × Block)}
    (hwrites : ∀ write ∈ writes, write.1 ∈ lh.homes) :
    Logged area lh contents (applyWrites writes disk) := by
  have harea : ∀ blockno, area.Contains blockno →
      applyWrites writes disk blockno = disk blockno := by
    intro blockno hblockno
    apply applyWrites_off
    intro write hwrite heq
    exact hfits.outside write.1 (hwrites write hwrite) (heq ▸ hblockno)
  refine ⟨?_, ?_, ?_⟩
  · rw [harea _ (hfits.start_contains hlen), hlogged.header]
  · intro i hi
    rw [harea _ (hfits.logBlock_contains hi), hlogged.copies i hi]
  · intro blockno houtside hhomes
    rw [applyWrites_off, hlogged.others blockno houtside hhomes]
    intro write hwrite heq
    exact hhomes (heq ▸ hwrites write hwrite)

/-- Installing the whole group and clearing the header ends the phase with the
contents of the group in place. -/
theorem Logged.finish (hfits : Fits lh area) (hlen : 0 < lh.len)
    (hlogged : Logged area lh contents disk) :
    Quiet area contents (applyWrites (recoveryWrites area lh disk) disk) := by
  have hstart := hfits.start_contains hlen
  rw [recoveryWrites, applyWrites_append, applyWrites_cons, applyWrites_nil]
  constructor
  · rw [update_self]
    exact len_decode_writeU32 _
  · intro blockno houtside
    have hne : blockno ≠ area.start := fun heq => houtside (heq ▸ hstart)
    rw [update_of_ne hne]
    by_cases hhomes : blockno ∈ lh.homes
    · obtain ⟨i, hi, rfl⟩ := mem_homes_iff.mp hhomes
      have hnodup : (((List.range' 1 lh.len).map fun i =>
          (lh.home i, disk (area.start + i))).map Prod.fst).Nodup := by
        rw [List.map_map]
        exact hfits.distinct
      rw [applyWrites_of_mem hnodup (lh.home i, disk (area.start + i))
        (List.mem_map.mpr ⟨i, hi, rfl⟩)]
      exact hlogged.copies i hi
    · rw [applyWrites_off, hlogged.others blockno houtside hhomes]
      intro write hwrite heq
      obtain ⟨i, hi, rfl⟩ := List.mem_map.mp hwrite
      exact hhomes (mem_homes_iff.mpr ⟨i, hi, heq⟩)

/-- A crash during the installation leaves the group logged or installed. -/
theorem Logged.crash (hfits : Fits lh area) (hlen : 0 < lh.len)
    (hlogged : Logged area lh contents disk) (count : ℕ) :
    Logged area lh contents (applyWrites ((recoveryWrites area lh disk).take count) disk) ∨
      Quiet area contents (applyWrites ((recoveryWrites area lh disk).take count) disk) := by
  by_cases hcount : count ≤ lh.len
  · left
    apply hlogged.install hfits hlen
    intro write hwrite
    rw [recoveryWrites, List.take_append_of_le_length (by simpa using hcount)] at hwrite
    obtain ⟨i, hi, rfl⟩ := List.mem_map.mp (List.mem_of_mem_take hwrite)
    exact mem_homes_iff.mpr ⟨i, hi, rfl⟩
  · right
    rw [List.take_of_length_le (by simp [recoveryWrites]; omega)]
    exact hlogged.finish hfits hlen

/-! ## What the code writes -/

/-- The loop of `write_log` and `install_trans` performs a copy for every block of
the group and leaves the log alone. -/
theorem transferBlocks_performs (hfits : Fits lh area) (state : LoggedDisk)
    (hlh : state.log.lh = lh) (hstart : state.log.start = area.start) (route : ℕ → ℕ → ℕ × ℕ)
    (hapart : ∀ i ∈ List.range' 1 lh.len, ∀ j ∈ List.range' 1 lh.len,
      (route (area.start + j) (lh.home j)).2 ≠ (route (area.start + i) (lh.home i)).1) :
    ∃ final, (List.range' 1 lh.len).foldlM (LoggedDisk.transferBlock route) state = .ok final ∧
      final.log = state.log ∧ state.bufs.Performs ((List.range' 1 lh.len).map fun i =>
        ((route (area.start + i) (lh.home i)).2,
          state.bufs.read (route (area.start + i) (lh.home i)).1)) final.bufs := by
  subst hlh
  have hindices : ∀ i ∈ List.range' 1 state.log.lh.len, i - 1 < logSize - 1 := by
    intro i hi
    have hcapacity := hfits.capacity
    rw [List.mem_range'_1] at hi
    omega
  refine ⟨_, LoggedDisk.foldlM_transferBlock _ _ state hindices, rfl, ?_⟩
  have hperforms := BufferedDisk.performs_foldl_copyBlock ((List.range' 1 state.log.lh.len).map
    fun i => route (state.log.start + i) (state.log.lh.home i)) state.bufs (by
      intro source hsource target htarget
      obtain ⟨i, hi, rfl⟩ := List.mem_map.mp hsource
      obtain ⟨j, hj, rfl⟩ := List.mem_map.mp htarget
      rw [hstart]
      exact hapart i hi j hj)
  rw [List.map_map, hstart] at hperforms
  rw [hstart]
  exact hperforms

/-- `install_trans` copies the log to the homes of the group. -/
theorem installTrans_performs (hfits : Fits lh area) (state : LoggedDisk)
    (hlh : state.log.lh = lh) (hstart : state.log.start = area.start) :
    ∃ final, state.installTrans = .ok final ∧ final.log = state.log ∧
      state.bufs.Performs ((List.range' 1 lh.len).map fun i =>
        (lh.home i, state.bufs.read (area.start + i))) final.bufs := by
  rw [LoggedDisk.installTrans, hlh]
  exact transferBlocks_performs hfits state hlh hstart _
    fun i hi j hj => hfits.home_ne hj (hfits.logBlock_contains hi)

theorem emptyHead_performs (state : LoggedDisk) :
    state.bufs.Performs [(state.log.start, writeU32 (state.bufs.read state.log.start) 0 0)]
      state.emptyHead.bufs :=
  BufferedDisk.performs_modify_write state.bufs state.log.start _

/-- Installing from a log whose blocks are read as `source` and clearing the
header: the writes are those of a recovery from `source`. -/
theorem installTrans_emptyHead (hfits : Fits lh area) (hlen : 0 < lh.len)
    (state : LoggedDisk) (hlh : state.log.lh = lh) (hstart : state.log.start = area.start) :
    ∃ final, state.installTrans = .ok final ∧ final.log = state.log ∧
      state.bufs.Performs (recoveryWrites area lh state.bufs.read) final.emptyHead.bufs := by
  obtain ⟨final, hinstall, hlog, hperforms⟩ := installTrans_performs hfits state hlh hstart
  refine ⟨final, hinstall, hlog, ?_⟩
  have hhead : final.bufs.read area.start = state.bufs.read area.start := by
    rw [hperforms.read_eq]
    apply applyWrites_off
    intro write hwrite
    obtain ⟨i, hi, rfl⟩ := List.mem_map.mp hwrite
    exact hfits.home_ne hi (hfits.start_contains hlen)
  have hempty := emptyHead_performs final
  rw [hlog, hstart, hhead] at hempty
  exact hperforms.append hempty

/-- The system between two groups: nothing is open, nothing is logged and the
buffers agree with the disk. -/
structure Idle (area : LogArea) (state : LoggedDisk) : Prop where
  start_eq : state.log.start = area.start
  size_eq : state.log.size = area.nlog
  outstanding_eq : state.log.outstanding = 0
  commiting_eq : state.log.commiting = false
  len_eq : state.log.lh.len = 0
  read_eq : state.bufs.read = state.bufs.disk
  header : (LogHeader.decode (state.bufs.disk area.start)).len = 0

/-- A boot from an empty header writes nothing. -/
theorem init_of_empty (hempty : (LogHeader.decode (disk area.start)).len = 0) :
    ∃ state, init area disk = .ok state ∧
      state.bufs = BufferedDisk.boot disk ∧ Idle area state := by
  have hhead : ¬0 < (LogHeader.decode (disk area.start)).len := by omega
  refine ⟨LoggedDisk.readHead ⟨area.log, BufferedDisk.boot disk⟩, ?_, rfl, ?_⟩
  · exact if_neg hhead
  · exact ⟨rfl, rfl, rfl, rfl, hempty, rfl, hempty⟩

/-- A boot from a logged group installs it. -/
theorem init_of_logged (hfits : Fits lh area) (hlen : 0 < lh.len)
    (hlogged : Logged area lh contents disk) :
    ∃ state, init area disk = .ok state ∧ Idle area state ∧
      state.bufs.writes = recoveryWrites area lh disk ∧
      state.bufs.disk = applyWrites (recoveryWrites area lh disk) disk := by
  let booted : LoggedDisk := ⟨area.log, BufferedDisk.boot disk⟩
  have hread : booted.readHead.bufs.read = disk := rfl
  have hlh : booted.readHead.log.lh = lh := hlogged.header
  have hhead : 0 < booted.readHead.log.lh.len := hlh ▸ hlen
  obtain ⟨final, hinstall, hlog, hperforms⟩ :=
    installTrans_emptyHead hfits hlen booted.readHead hlh rfl
  rw [hread] at hperforms
  refine ⟨final.emptyHead, ?_, ?_, ?_, ?_⟩
  · change booted.recover = _
    rw [LoggedDisk.recover, if_pos hhead, hinstall]
    rfl
  · have hdisk : final.emptyHead.bufs.disk =
        applyWrites (recoveryWrites area lh disk) disk := hperforms.disk_eq
    refine ⟨?_, ?_, ?_, ?_, rfl, ?_, ?_⟩
    · exact congrArg Log.start hlog
    · exact congrArg Log.size hlog
    · exact congrArg Log.outstanding hlog
    · exact congrArg Log.commiting hlog
    · rw [hperforms.read_eq, hdisk, hread]
    · rw [hdisk]
      exact (hlogged.finish hfits hlen).1
  · exact hperforms.writes_eq
  · exact hperforms.disk_eq

/-! ## Recovery -/

/-- The disks a crash around one group can leave behind. -/
def Recoverable (area : LogArea) (lh : LogHeader) (before after disk : ℕ → Block) : Prop :=
  Quiet area before disk ∨ (0 < lh.len ∧ Logged area lh after disk) ∨ Quiet area after disk

/-- What a completed recovery has to establish. -/
def Recovered (area : LogArea) (before after : ℕ → Block) (state : LoggedDisk) : Prop :=
  Idle area state ∧ (Quiet area before state.bufs.disk ∨ Quiet area after state.bufs.disk)

theorem bootTrace_eq_some {writes : List (ℕ × Block)} {state : LoggedDisk} :
    bootTrace area disk = some (writes, state) ↔
      init area disk = .ok state ∧ state.bufs.writes = writes := by
  unfold bootTrace
  cases init area disk with
  | error cause => simp
  | ok booted =>
    simp only [Option.some.injEq, Prod.mk.injEq, Except.ok.injEq]
    constructor
    · rintro ⟨rfl, rfl⟩
      exact ⟨rfl, rfl⟩
    · rintro ⟨rfl, rfl⟩
      exact ⟨rfl, rfl⟩

/-- From each of the disks a crash can leave, the next boot completes, and all
its prefixes leave such a disk again. -/
theorem Recoverable.boot {before after : ℕ → Block} (hfits : Fits lh area)
    (hdisk : Recoverable area lh before after disk) :
    ∃ writes state, bootTrace area disk = some (writes, state) ∧
      (∀ count, Recoverable area lh before after (applyWrites (writes.take count) disk)) ∧
      Recovered area before after state := by
  have hquiet : ∀ contents, Quiet area contents disk →
      ∃ state, bootTrace area disk = some ([], state) ∧ Idle area state ∧
        state.bufs.disk = disk := by
    intro contents hcontents
    obtain ⟨state, hinit, hbufs, hidle⟩ := init_of_empty hcontents.1
    refine ⟨state, bootTrace_eq_some.mpr ⟨hinit, ?_⟩, hidle, ?_⟩
    · rw [hbufs]
      rfl
    · rw [hbufs]
      rfl
  rcases hdisk with hbefore | ⟨hlen, hlogged⟩ | hafter
  · obtain ⟨state, hboot, hidle, hsame⟩ := hquiet before hbefore
    refine ⟨[], state, hboot, fun count => ?_, hidle, ?_⟩
    · rw [List.take_nil, applyWrites_nil]
      exact Or.inl hbefore
    · rw [hsame]
      exact Or.inl hbefore
  · obtain ⟨state, hinit, hidle, hwrites, hfinal⟩ := init_of_logged hfits hlen hlogged
    refine ⟨_, state, bootTrace_eq_some.mpr ⟨hinit, hwrites⟩, ?_, hidle, ?_⟩
    · intro count
      rcases hlogged.crash hfits hlen count with hagain | hdone
      · exact Or.inr (Or.inl ⟨hlen, hagain⟩)
      · exact Or.inr (Or.inr hdone)
    · rw [hfinal]
      exact Or.inr (hlogged.finish hfits hlen)
  · obtain ⟨state, hboot, hidle, hsame⟩ := hquiet after hafter
    refine ⟨[], state, hboot, fun count => ?_, hidle, ?_⟩
    · rw [List.take_nil, applyWrites_nil]
      exact Or.inr (Or.inr hafter)
    · rw [hsame]
      exact Or.inr hafter

/-- However often recovery is interrupted, it can complete, and whenever it
completes the group is either entirely there or entirely absent. -/
theorem Recoverable.recovers {before after : ℕ → Block} (hfits : Fits lh area)
    (hdisk : Recoverable area lh before after disk) :
    (∃ state, RecoversTo (bootTrace area) disk state) ∧
      ∀ state, RecoversTo (bootTrace area) disk state → Recovered area before after state := by
  constructor
  · obtain ⟨writes, state, hboot, _, _⟩ := hdisk.boot hfits
    exact ⟨state, RecoversTo.finish hboot⟩
  · intro state hrecovers
    refine hrecovers.induction_invariant ?_ hdisk
    intro current writes booted hcurrent hboot
    obtain ⟨writes', booted', hboot', hwritten, hdone⟩ := hcurrent.boot hfits
    rw [hboot] at hboot'
    obtain ⟨rfl, rfl⟩ : writes = writes' ∧ booted = booted' := by simpa using hboot'
    exact ⟨hwritten, hdone⟩

/-! ## Commit -/

/-- The writes of `write_log` and `write_head`: up to the last one the group
does not exist on disk. -/
def logWrites (area : LogArea) (lh : LogHeader) (cached : ℕ → Block) : List (ℕ × Block) :=
  (List.range' 1 lh.len).map (fun i => (area.start + i, cached (lh.home i))) ++
    [(area.start, lh.encode (cached area.start))]

/-- `write_log` copies the cached group into the log. -/
theorem writeLog_performs (hfits : Fits lh area) (state : LoggedDisk)
    (hlh : state.log.lh = lh) (hstart : state.log.start = area.start) :
    ∃ final, state.writeLog = .ok final ∧ final.log = state.log ∧
      state.bufs.Performs ((List.range' 1 lh.len).map fun i =>
        (area.start + i, state.bufs.read (lh.home i))) final.bufs := by
  rw [LoggedDisk.writeLog, hlh]
  exact transferBlocks_performs hfits state hlh hstart _
    fun i hi j hj => (hfits.home_ne hi (hfits.logBlock_contains hj)).symm

/-- `write_log` followed by `write_head`. -/
theorem writeLog_writeHead (hfits : Fits lh area) (state : LoggedDisk)
    (hlh : state.log.lh = lh) (hstart : state.log.start = area.start) :
    ∃ final, state.writeLog = .ok final ∧ final.log = state.log ∧
      state.bufs.Performs (logWrites area lh state.bufs.read) final.writeHead.bufs := by
  obtain ⟨final, hwrite, hlog, hperforms⟩ := writeLog_performs hfits state hlh hstart
  refine ⟨final, hwrite, hlog, ?_⟩
  have hhead : final.bufs.read area.start = state.bufs.read area.start := by
    rw [hperforms.read_eq]
    apply applyWrites_off
    intro write hwrite
    obtain ⟨i, hi, rfl⟩ := List.mem_map.mp hwrite
    rw [List.mem_range'_1] at hi
    change area.start + i ≠ area.start
    omega
  refine hperforms.append ?_
  rw [LoggedDisk.writeHead, hlog, hstart, hlh, hhead]
  exact BufferedDisk.performs_modify_write final.bufs area.start _

/-- Until the header is written the disk still shows the state before the
group. -/
theorem quiet_of_take_logWrites {before : ℕ → Block} {count : ℕ}
    (hfits : Fits lh area) (cached : ℕ → Block)
    (hcount : count ≤ lh.len) (hbefore : Quiet area before disk) :
    Quiet area before (applyWrites ((logWrites area lh cached).take count) disk) := by
  rw [logWrites, List.take_append_of_le_length (by simpa using hcount)]
  have htarget : ∀ write ∈ ((List.range' 1 lh.len).map fun i =>
      (area.start + i, cached (lh.home i))).take count,
      area.Contains write.1 ∧ write.1 ≠ area.start := by
    intro write hwrite
    obtain ⟨i, hi, rfl⟩ := List.mem_map.mp (List.mem_of_mem_take hwrite)
    refine ⟨hfits.logBlock_contains hi, ?_⟩
    rw [List.mem_range'_1] at hi
    change area.start + i ≠ area.start
    omega
  constructor
  · rw [applyWrites_off fun write hwrite => (htarget write hwrite).2]
    exact hbefore.1
  · intro blockno houtside
    rw [applyWrites_off]
    · exact hbefore.2 blockno houtside
    · intro write hwrite heq
      exact houtside (heq ▸ (htarget write hwrite).1)

/-- Once the header is written the whole group is logged. -/
theorem logged_of_logWrites {cached : ℕ → Block} (hfits : Fits lh area)
    (hlen : 0 < lh.len) (store : ℕ → Block)
    (hclean : ∀ blockno, blockno ∉ lh.homes → store blockno = cached blockno) :
    Logged area lh cached (applyWrites (logWrites area lh cached) store) := by
  have hsplit : applyWrites (logWrites area lh cached) store =
      update (applyWrites ((List.range' 1 lh.len).map fun i =>
        (area.start + i, cached (lh.home i))) store) area.start
          (lh.encode (cached area.start)) := by
    rw [logWrites, applyWrites_append, applyWrites_cons, applyWrites_nil]
  have hcapacity : lh.len < logSize := by
    have := hfits.capacity
    have : logSize = 30 := rfl
    omega
  rw [hsplit]
  refine ⟨?_, ?_, ?_⟩
  · rw [update_self, LogHeader.decode_encode _ _ hcapacity]
  · intro i hi
    have hi' := hi
    rw [List.mem_range'_1] at hi'
    rw [update_of_ne (by omega)]
    refine applyWrites_of_mem ?_ (area.start + i, cached (lh.home i))
      (List.mem_map.mpr ⟨i, hi, rfl⟩) store
    rw [List.map_map]
    apply List.Nodup.map_on _ List.nodup_range'
    intro left _ right _ heq
    simpa using heq
  · intro blockno houtside hhomes
    have hne : blockno ≠ area.start := fun heq => houtside (heq ▸ hfits.start_contains hlen)
    rw [update_of_ne hne, applyWrites_off, hclean blockno hhomes]
    intro write hwrite heq
    obtain ⟨i, hi, rfl⟩ := List.mem_map.mp hwrite
    exact houtside (heq ▸ hfits.logBlock_contains hi)

/-- The writes of a whole commit: those that log the group and those that
install it again from the log. -/
theorem commitNoLock_performs (hfits : Fits lh area) (hlen : 0 < lh.len)
    (state : LoggedDisk) (hlh : state.log.lh = lh) (hstart : state.log.start = area.start)
    (hcommiting : state.log.commiting = true) :
    ∃ final, state.commitNoLock = .ok final ∧ final.log = state.log.emptied ∧
      state.bufs.Performs (logWrites area lh state.bufs.read ++ recoveryWrites area lh
          (applyWrites (logWrites area lh state.bufs.read) state.bufs.read)) final.bufs := by
  obtain ⟨logged, hlogged, hlog, hfirst⟩ := writeLog_writeHead hfits state hlh hstart
  have hlh' : logged.writeHead.log.lh = lh := by
    rw [← hlh, ← hlog]
    rfl
  have hstart' : logged.writeHead.log.start = area.start := by
    rw [← hstart, ← hlog]
    rfl
  obtain ⟨installed, hinstall, hlog', hsecond⟩ :=
    installTrans_emptyHead hfits hlen logged.writeHead hlh' hstart'
  refine ⟨installed.emptyHead, ?_, ?_, ?_⟩
  · have hpos : state.log.lh.len > 0 := hlh ▸ hlen
    rw [LoggedDisk.commitNoLock, hcommiting, if_neg (by simp), if_pos hpos, hlogged]
    change (do
      let installed ← logged.writeHead.installTrans
      return installed.emptyHead) = _
    rw [hinstall]
    rfl
  · change installed.log.emptied = _
    rw [hlog']
    change logged.log.emptied = _
    rw [hlog]
  · rw [hfirst.read_eq] at hsecond
    exact hfirst.append hsecond

/-- The installation that ends a commit reads back what the same commit has
just logged, so it does not matter what the blocks held before. -/
theorem recoveryWrites_logWrites (cached left right : ℕ → Block) :
    recoveryWrites area lh (applyWrites (logWrites area lh cached) left) =
      recoveryWrites area lh (applyWrites (logWrites area lh cached) right) := by
  have hlogged : ∀ i ∈ List.range' 1 lh.len,
      applyWrites (logWrites area lh cached) left (area.start + i) =
        applyWrites (logWrites area lh cached) right (area.start + i) := by
    intro i hi
    apply applyWrites_congr
    left
    refine ⟨(area.start + i, cached (lh.home i)), ?_, rfl⟩
    exact List.mem_append_left _ (List.mem_map.mpr ⟨i, hi, rfl⟩)
  have hhead : applyWrites (logWrites area lh cached) left area.start =
      applyWrites (logWrites area lh cached) right area.start := by
    apply applyWrites_congr
    left
    exact ⟨_, List.mem_append_right _ List.mem_cons_self, rfl⟩
  rw [recoveryWrites, recoveryWrites, hhead]
  congr 1
  apply List.map_congr_left
  intro i hi
  rw [hlogged i hi]

/-- Every prefix of the writes of a commit leaves a disk from which recovery
restores one of the two states around the group. -/
theorem recoverable_of_take_commit {before cached : ℕ → Block}
    (hfits : Fits lh area) (hlen : 0 < lh.len) (hbefore : Quiet area before disk)
    (hclean : ∀ blockno, blockno ∉ lh.homes → disk blockno = cached blockno)
    (store : ℕ → Block) (count : ℕ) :
    Recoverable area lh before cached (applyWrites
      ((logWrites area lh cached ++ recoveryWrites area lh
        (applyWrites (logWrites area lh cached) store)).take count) disk) := by
  have hlength : (logWrites area lh cached).length = lh.len + 1 := by simp [logWrites]
  rw [List.take_append, applyWrites_append, hlength]
  by_cases hcount : count ≤ lh.len
  · left
    have hnone : count - (lh.len + 1) = 0 := by omega
    rw [hnone, List.take_zero, applyWrites_nil]
    exact quiet_of_take_logWrites hfits cached hcount hbefore
  · right
    have hall : (logWrites area lh cached).take count =
        logWrites area lh cached := List.take_of_length_le (by omega)
    rw [hall, recoveryWrites_logWrites cached store disk]
    have hlogged := logged_of_logWrites hfits hlen disk hclean
    rcases hlogged.crash hfits hlen (count - (lh.len + 1)) with hagain | hdone
    · exact Or.inl ⟨hlen, hagain⟩
    · exact Or.inr hdone

/-! ## Groups -/

/-- A group of logged blocks with their new contents, in the order in which
they are logged. -/
abbrev Group := List (UInt32 × Block)

def Group.Outside (group : Group) (area : LogArea) : Prop :=
  ∀ write ∈ group, ¬area.Contains write.1.toNat

def Group.homeWrites (group : Group) : List (ℕ × Block) :=
  group.map fun write => (write.1.toNat, write.2)

/-- Open an operation and log every block of the group. -/
def stageGroup (state : LoggedDisk) (group : Group) :
    Except Stop LoggedDisk := do
  let opened ← state.beginOp
  group.foldlM LoggedDisk.logWrite opened

/-- The system while a group is being logged: the disk is untouched and the
buffers hold the new contents. -/
structure Staged (area : LogArea) (state : LoggedDisk) (group : Group)
    (staged : LoggedDisk) : Prop where
  start_eq : staged.log.start = area.start
  size_eq : staged.log.size = area.nlog
  outstanding_eq : staged.log.outstanding = 1
  commiting_eq : staged.log.commiting = false
  fits : Fits staged.log.lh area
  homes_iff : ∀ blockno, blockno ∈ staged.log.lh.homes ↔ blockno ∈ group.homeWrites.map Prod.fst
  read_eq : staged.bufs.read = applyWrites group.homeWrites state.bufs.disk
  disk_eq : staged.bufs.disk = state.bufs.disk
  writes_eq : staged.bufs.writes = state.bufs.writes

theorem fits_of_empty {log : Log} (hlen : log.lh.len = 0) : Fits log.lh area := by
  refine ⟨by omega, ?_, ?_, ?_⟩
  · simp [hlen]
  · simp [LogHeader.homes, hlen]
  · simp [LogHeader.homes, hlen]

theorem staged_of_beginOp {state opened : LoggedDisk} (hidle : Idle area state)
    (hbegin : state.beginOp = .ok opened) : Staged area state [] opened := by
  unfold LoggedDisk.beginOp at hbegin
  split at hbegin
  · next log hlog =>
      obtain ⟨hcommiting, _, rfl⟩ := Log.beginOp_eq_some hlog
      simp only [Except.ok.injEq] at hbegin
      subst hbegin
      refine ⟨hidle.start_eq, hidle.size_eq, ?_, hcommiting,
        fits_of_empty hidle.len_eq, ?_, hidle.read_eq, rfl, rfl⟩
      · change state.log.outstanding + 1 = 1
        rw [hidle.outstanding_eq]
      · intro blockno
        simp [LogHeader.homes, hidle.len_eq, Group.homeWrites]
  · simp at hbegin

/-- Appending a block to the header keeps the header within its area. -/
theorem Fits.push {blockno : UInt32} (hfits : Fits lh area)
    (hnew : blockno ∉ lh.logged) (hlen : lh.len + 2 < logSize)
    (hroom : lh.len + 2 < area.nlog) (houtside : ¬area.Contains blockno.toNat) :
    Fits (lh.push blockno) area ∧ (lh.push blockno).homes = lh.homes ++ [blockno.toNat] := by
  have hhomes : (lh.push blockno).homes = lh.homes ++ [blockno.toNat] := by
    rw [LogHeader.homes_eq_logged _ (show lh.len + 1 ≤ logSize - 1 by omega),
      LogHeader.homes_eq_logged _ hfits.capacity, LogHeader.logged_push _ _ (by omega)]
    simp
  refine ⟨⟨?_, ?_, ?_, ?_⟩, hhomes⟩
  · change lh.len + 1 ≤ logSize - 1
    omega
  · intro i hi
    change i ∈ List.range' 1 (lh.len + 1) at hi
    rw [List.mem_range'_1] at hi
    omega
  · intro home hhome
    rw [hhomes, List.mem_append, List.mem_singleton] at hhome
    rcases hhome with hold | rfl
    · exact hfits.outside home hold
    · exact houtside
  · rw [hhomes, List.nodup_append]
    refine ⟨hfits.distinct, List.nodup_singleton _, ?_⟩
    intro left hleft right hright heq
    rw [List.mem_singleton] at hright
    rw [LogHeader.homes_eq_logged _ hfits.capacity] at hleft
    obtain ⟨old, hold, hvalue⟩ := List.mem_map.mp hleft
    apply hnew
    rw [← UInt32.toNat.inj (hvalue.trans (heq.trans hright))]
    exact hold

theorem Staged.logWrite {state staged next : LoggedDisk} {group : Group}
    {write : UInt32 × Block} (hstaged : Staged area state group staged)
    (houtside : ¬area.Contains write.1.toNat) (hwrite : staged.logWrite write = .ok next) :
    Staged area state (group ++ [write]) next := by
  unfold LoggedDisk.logWrite at hwrite
  split at hwrite
  · next log hlog =>
      simp only [Except.ok.injEq] at hwrite
      subst hwrite
      have hread : (staged.bufs.modify write.1.toNat write.2).read =
          applyWrites (Group.homeWrites (group ++ [write])) state.bufs.disk := by
        rw [BufferedDisk.read_modify, hstaged.read_eq]
        simp [Group.homeWrites, applyWrites_append]
      have hblocks : (Group.homeWrites (group ++ [write])).map Prod.fst =
          group.homeWrites.map Prod.fst ++ [write.1.toNat] := by simp [Group.homeWrites]
      obtain ⟨_, ⟨hmem, rfl⟩ | ⟨hnew, hlen, hroom, rfl⟩⟩ := Log.write_eq_ok hlog
      · refine ⟨hstaged.start_eq, hstaged.size_eq, hstaged.outstanding_eq,
          hstaged.commiting_eq, hstaged.fits, ?_, hread, hstaged.disk_eq, hstaged.writes_eq⟩
        intro blockno
        have hhome : write.1.toNat ∈ staged.log.lh.homes := by
          rw [LogHeader.homes_eq_logged _ hstaged.fits.capacity]
          exact List.mem_map_of_mem hmem
        rw [hblocks, List.mem_append, List.mem_singleton, hstaged.homes_iff]
        constructor
        · exact Or.inl
        · rintro (hold | rfl)
          · exact hold
          · exact (hstaged.homes_iff _).mp hhome
      · rw [hstaged.size_eq] at hroom
        obtain ⟨hfits, hhomes⟩ := hstaged.fits.push hnew hlen hroom houtside
        refine ⟨hstaged.start_eq, hstaged.size_eq, hstaged.outstanding_eq,
          hstaged.commiting_eq, hfits, ?_, hread, hstaged.disk_eq, hstaged.writes_eq⟩
        intro blockno
        change blockno ∈ (staged.log.lh.push write.1).homes ↔ _
        rw [hhomes, hblocks, List.mem_append, List.mem_append, hstaged.homes_iff]
  · simp at hwrite

theorem Staged.foldlM_logWrite {state current staged : LoggedDisk}
    {done group : Group} (hcurrent : Staged area state done current) (houtside : group.Outside area)
    (hfold : group.foldlM LoggedDisk.logWrite current = .ok staged) :
    Staged area state (done ++ group) staged := by
  induction group generalizing current done with
  | nil =>
    rw [List.foldlM_nil] at hfold
    obtain rfl : current = staged := by simpa [pure, Except.pure] using hfold
    simpa using hcurrent
  | cons write group ih =>
    rw [List.foldlM_cons] at hfold
    cases hwrite : current.logWrite write with
    | error stop => simp [hwrite, bind, Except.bind] at hfold
    | ok next =>
      rw [hwrite] at hfold
      have hnext := hcurrent.logWrite (houtside write List.mem_cons_self) hwrite
      have hrest := ih hnext (fun other hother => houtside other (List.mem_cons_of_mem _ hother))
        hfold
      simpa using hrest

/-- Logging a group changes buffers and header only. -/
theorem staged_of_stageGroup {state staged : LoggedDisk} {group : Group}
    (hidle : Idle area state) (houtside : group.Outside area)
    (hstage : stageGroup state group = .ok staged) : Staged area state group staged := by
  unfold stageGroup at hstage
  cases hbegin : state.beginOp with
  | error stop => simp [hbegin, bind, Except.bind] at hstage
  | ok opened =>
    rw [hbegin] at hstage
    exact (staged_of_beginOp hidle hbegin).foldlM_logWrite houtside hstage

/-! ## Crashes between and inside the commits of a run -/

/-- The disk after a crash that follows `count` block writes of the `end_op`
that turns `staged` into `next`. -/
def crashDisk (staged next : LoggedDisk) (count : ℕ) : ℕ → Block :=
  applyWrites ((next.bufs.writes.drop staged.bufs.writes.length).take count) staged.bufs.disk

/-- `end_op` commits the staged group; a crash at any point of it leaves a
recoverable disk. -/
theorem Staged.endOp {state staged : LoggedDisk} {group : Group}
    (hidle : Idle area state) (hstaged : Staged area state group staged) :
    ∃ next, staged.endOp = .ok next ∧ Idle area next ∧
      Quiet area (applyWrites group.homeWrites state.bufs.disk)
        next.bufs.disk ∧ ∀ count, Recoverable area staged.log.lh state.bufs.disk
        (applyWrites group.homeWrites state.bufs.disk) (crashDisk staged next count) := by
  have hend : staged.log.endOp = .ok
      (true, { staged.log with outstanding := 0, commiting := true }) := by
    simp [Log.endOp, hstaged.outstanding_eq, hstaged.commiting_eq]
  have hbefore : Quiet area state.bufs.disk staged.bufs.disk := by
    rw [hstaged.disk_eq]
    exact ⟨hidle.header, fun _ _ => rfl⟩
  have hclean : ∀ blockno, blockno ∉ staged.log.lh.homes → staged.bufs.disk blockno =
        applyWrites group.homeWrites state.bufs.disk blockno := by
    intro blockno hhomes
    rw [hstaged.disk_eq, applyWrites_off]
    intro write hwrite heq
    exact hhomes ((hstaged.homes_iff blockno).mpr (List.mem_map.mpr ⟨write, hwrite, heq⟩))
  by_cases hlen : 0 < staged.log.lh.len
  · obtain ⟨final, hcommit, hlog, hperforms⟩ := commitNoLock_performs hstaged.fits hlen
        { staged with
          log := { staged.log with outstanding := 0, commiting := true } }
        rfl hstaged.start_eq rfl
    dsimp only at hperforms
    rw [hstaged.read_eq] at hperforms
    let next : LoggedDisk := { final with log := { final.log with commiting := false } }
    have hrecoverable : ∀ count, Recoverable area staged.log.lh state.bufs.disk
          (applyWrites group.homeWrites state.bufs.disk) (crashDisk staged next count) := by
      intro count
      have hwrites : next.bufs.writes.drop staged.bufs.writes.length = logWrites area staged.log.lh
              (applyWrites group.homeWrites state.bufs.disk) ++ recoveryWrites area staged.log.lh
              (applyWrites (logWrites area staged.log.lh
                (applyWrites group.homeWrites state.bufs.disk))
                (applyWrites group.homeWrites state.bufs.disk)) := by
        change final.bufs.writes.drop _ = _
        rw [hperforms.writes_eq, List.drop_left]
      rw [crashDisk, hwrites]
      exact recoverable_of_take_commit hstaged.fits hlen hbefore hclean _ count
    have hdone : Quiet area (applyWrites group.homeWrites state.bufs.disk)
        next.bufs.disk := by
      change Quiet area _ final.bufs.disk
      rw [hperforms.disk_eq, applyWrites_append, recoveryWrites_logWrites _ _ staged.bufs.disk]
      exact (logged_of_logWrites hstaged.fits hlen _ hclean).finish hstaged.fits hlen
    refine ⟨next, ?_, ?_, hdone, hrecoverable⟩
    · simp only [LoggedDisk.endOp, hend, hcommit]
      rfl
    · refine ⟨?_, ?_, ?_, rfl, ?_, ?_, hdone.1⟩
      · exact (congrArg Log.start hlog).trans hstaged.start_eq
      · exact (congrArg Log.size hlog).trans hstaged.size_eq
      · exact congrArg Log.outstanding hlog
      · exact congrArg (fun log : Log => log.lh.len) hlog
      · change final.bufs.read = final.bufs.disk
        rw [hperforms.read_eq, hperforms.disk_eq]
        funext blockno
        apply applyWrites_congr
        by_cases hhomes : blockno ∈ staged.log.lh.homes
        · left
          obtain ⟨i, hi, rfl⟩ := mem_homes_iff.mp hhomes
          refine ⟨_, List.mem_append_right _ (List.mem_append_left _
            (List.mem_map.mpr ⟨i, hi, rfl⟩)), rfl⟩
        · right
          rw [hstaged.read_eq, hclean blockno hhomes]
  · have hempty : staged.log.lh.len = 0 := by omega
    have hnone : group.homeWrites = [] := by
      rw [← List.map_eq_nil_iff, List.eq_nil_iff_forall_not_mem]
      intro blockno hblockno
      have hhome := (hstaged.homes_iff blockno).mpr hblockno
      simp [LogHeader.homes, hempty] at hhome
    rw [hnone, applyWrites_nil]
    let next : LoggedDisk := { staged with log := { staged.log with outstanding := 0 } }
    refine ⟨next, ?_, ?_, hbefore, ?_⟩
    · simp only [LoggedDisk.endOp, hend, LoggedDisk.commitNoLock, hempty]
      simp [next, hstaged.commiting_eq]
    · refine ⟨hstaged.start_eq, hstaged.size_eq, rfl, hstaged.commiting_eq, hempty, ?_, hbefore.1⟩
      change staged.bufs.read = staged.bufs.disk
      rw [hstaged.read_eq, hstaged.disk_eq, hnone, applyWrites_nil]
    · intro count
      left
      have hwrites : next.bufs.writes.drop staged.bufs.writes.length = [] := List.drop_length
      rw [crashDisk, hwrites, List.take_nil, applyWrites_nil]
      exact hbefore

/-- The systems a machine can be running: booted from a disk with an empty
header, after a committed group, or recovered from a crash inside the commit
of a group. -/
inductive Reachable (area : LogArea) : LoggedDisk → Prop
  | boot {disk : ℕ → Block} {state : LoggedDisk}
      (hempty : (LogHeader.decode (disk area.start)).len = 0)
      (hinit : init area disk = .ok state) : Reachable area state
  | commit {state staged next : LoggedDisk} {group : Group}
      (hreach : Reachable area state) (houtside : group.Outside area)
      (hstage : stageGroup state group = .ok staged)
      (hend : staged.endOp = .ok next) : Reachable area next
  | recover {state staged next final : LoggedDisk} {group : Group}
      (count : ℕ) (hreach : Reachable area state) (houtside : group.Outside area)
      (hstage : stageGroup state group = .ok staged) (hend : staged.endOp = .ok next)
      (hrecovers : RecoversTo (bootTrace area) (crashDisk staged next count)
        final) : Reachable area final

theorem Reachable.idle {state : LoggedDisk} (hreach : Reachable area state) : Idle area state := by
  induction hreach with
  | boot hempty hinit =>
    obtain ⟨booted, hbooted, _, hidle⟩ := init_of_empty hempty
    rw [hinit, Except.ok.injEq] at hbooted
    exact hbooted ▸ hidle
  | commit _ houtside hstage hend ih =>
    obtain ⟨next, hnext, hidle, _, _⟩ := (staged_of_stageGroup ih houtside hstage).endOp ih
    rw [hend, Except.ok.injEq] at hnext
    exact hnext ▸ hidle
  | recover count _ houtside hstage hend hrecovers ih =>
    have hstaged := staged_of_stageGroup ih houtside hstage
    obtain ⟨next, hnext, _, _, hcrash⟩ := hstaged.endOp ih
    rw [hend, Except.ok.injEq] at hnext
    subst hnext
    exact (((hcrash count).recovers hstaged.fits).2 _ hrecovers).1

/-- A crash after any number of the block writes of a commit, followed by a
recovery that may itself be interrupted any number of times, leaves the header
empty and all blocks outside the log area as they were before the group or as
they are after it.  Such a recovery exists from every crash point, and without
a crash the group is in place. -/
theorem commit_crash_atomic {area : LogArea} {state staged : LoggedDisk}
    {group : Group} (hreach : Reachable area state) (houtside : group.Outside area)
    (hstage : stageGroup state group = .ok staged) :
    ∃ next, staged.endOp = .ok next ∧ (∀ blockno, ¬area.Contains blockno → next.bufs.disk blockno =
        applyWrites group.homeWrites state.bufs.disk blockno) ∧ ∀ count,
        (∃ final, RecoversTo (bootTrace area) (crashDisk staged next count) final) ∧
        ∀ final, RecoversTo (bootTrace area) (crashDisk staged next count) final →
          (LogHeader.decode (final.bufs.disk area.start)).len = 0 ∧
          ((∀ blockno, ¬area.Contains blockno → final.bufs.disk blockno = state.bufs.disk blockno) ∨
            ∀ blockno, ¬area.Contains blockno → final.bufs.disk blockno =
                applyWrites group.homeWrites state.bufs.disk blockno) := by
  have hidle := hreach.idle
  have hstaged := staged_of_stageGroup hidle houtside hstage
  obtain ⟨next, hend, _, hdone, hcrash⟩ := hstaged.endOp hidle
  refine ⟨next, hend, hdone.2, fun count => ?_⟩
  obtain ⟨hexists, hall⟩ := (hcrash count).recovers hstaged.fits
  refine ⟨hexists, fun final hfinal => ?_⟩
  obtain ⟨_, hbefore | hafter⟩ := hall final hfinal
  · exact ⟨hbefore.1, Or.inl hbefore.2⟩
  · exact ⟨hafter.1, Or.inr hafter.2⟩

/-- The log area that `mkfs` lays out. -/
def mkfsArea : LogArea := ⟨2, 30⟩

/-- Two logged blocks, one of them logged twice. -/
def exampleGroup : Group :=
  [(40, fun _ => 7), (41, fun _ => 9), (40, fun _ => 8)]

/-- A freshly booted machine with an empty disk commits two blocks. -/
theorem commit_crash_atomic_exampleGroup :
    ∃ state staged next, init mkfsArea (fun _ _ => 0) = .ok state ∧
      stageGroup state exampleGroup = .ok staged ∧ staged.endOp = .ok next ∧ ∀ count final,
        RecoversTo (bootTrace mkfsArea) (crashDisk staged next count) final →
        (∀ blockno, ¬mkfsArea.Contains blockno →
            final.bufs.disk blockno = state.bufs.disk blockno) ∨
          ∀ blockno, ¬mkfsArea.Contains blockno → final.bufs.disk blockno =
              applyWrites exampleGroup.homeWrites state.bufs.disk blockno := by
  let state : LoggedDisk := LoggedDisk.readHead ⟨mkfsArea.log, BufferedDisk.boot fun _ _ => 0⟩
  have hinit : init mkfsArea (fun _ _ => 0) = .ok state := rfl
  have houtside : exampleGroup.Outside mkfsArea := by
    intro write hwrite
    simp only [exampleGroup, List.mem_cons, List.not_mem_nil, or_false] at hwrite
    rcases hwrite with rfl | rfl | rfl <;>
      simp [LogArea.Contains, mkfsArea]
  obtain ⟨staged, hstage⟩ : ∃ staged, stageGroup state exampleGroup = .ok staged := ⟨_, rfl⟩
  obtain ⟨next, hend, _, hall⟩ := commit_crash_atomic (Reachable.boot rfl hinit) houtside hstage
  exact ⟨state, staged, next, hinit, hstage, hend,
    fun count final hfinal => ((hall count).2 final hfinal).2⟩

end RxOs.LogCrash
