import RxOs.Fs.LogUse

/-!
# How many blocks a write logs

The blocks that file-system code passes to `Log::write`, counted without the
bitmap block, on a volume with a single bitmap block.  Costs of parts add up.
-/

namespace RxOs.LogCosts

open ByteView Exec Params LogCommit Blocks BitMap Dinode Inode LogUse

/-! ## Counting blocks -/

/-- Apart from the bitmap block at most `count` blocks were logged. -/
structure Logs (count : ℕ) (vol next : Volume) : Prop where
  sb_eq : next.sb = vol.sb
  logged : ∃ (events : List Event) (extra : Finset UInt32),
    next.events = vol.events ++ events ∧ extra.card ≤ count ∧ ∀ blockno ∈ loggedBlocks events,
        blockno = .ofNat vol.sb.bmapstart ∨ blockno ∈ extra

section Logs

variable {left right count : ℕ} {vol middle next : Volume}

theorem Logs.trans (hfirst : Logs left vol middle)
    (hsecond : Logs right middle next) : Logs (left + right) vol next := by
  obtain ⟨events, extra, hevents, hcard, hblocks⟩ := hfirst.logged
  obtain ⟨later, more, hlater, hmore, hblocks'⟩ := hsecond.logged
  refine ⟨hsecond.sb_eq.trans hfirst.sb_eq, events ++ later, extra ∪ more, ?_,
    (Finset.card_union_le _ _).trans (Nat.add_le_add hcard hmore), ?_⟩
  · rw [hlater, hevents, List.append_assoc]
  · intro blockno hmem
    rw [loggedBlocks, List.filterMap_append, List.mem_append] at hmem
    rw [Finset.mem_union]
    rcases hmem with hmem | hmem
    · exact (hblocks blockno hmem).imp_right .inl
    · rw [← hfirst.sb_eq]
      exact (hblocks' blockno hmem).imp_right .inr

theorem Logs.mono (hlogs : Logs left vol next) (hle : left ≤ right) : Logs right vol next := by
  obtain ⟨events, extra, hevents, hcard, hblocks⟩ := hlogs.logged
  exact ⟨hlogs.sb_eq, events, extra, hevents, hcard.trans hle, hblocks⟩

theorem Logs.of_events {event : Event} {blocks : Finset UInt32}
    (hsb : next.sb = vol.sb) (hevents : next.events = vol.events ++ [event])
    (hblocks : ∀ blockno ∈ loggedBlocks [event],
      blockno = .ofNat vol.sb.bmapstart ∨ blockno ∈ blocks) : Logs blocks.card vol next :=
  ⟨hsb, [event], blocks, hevents, Nat.le_refl _, hblocks⟩

theorem Logs.refl (vol : Volume) : Logs 0 vol vol :=
  ⟨rfl, [], ∅, (List.append_nil _).symm, Nat.le_refl _, nofun⟩

end Logs

section Costs

variable {State Value Result : Type} {look : State → Volume}
variable {left right count : ℕ}

/-- Whatever its outcome, the program logs at most `count` blocks besides the
bitmap block. -/
def Costs (look : State → Volume) (count : ℕ) (program : EStateM Stop State Value) : Prop :=
  ∀ state, (look state).sb.size ≤ bpb →
    Ensures program state (fun _ next => Logs count (look state) (look next))
      fun _ next => Logs count (look state) (look next)

theorem costs_pure (value : Value) : Costs look 0 (pure value : EStateM Stop State Value) :=
  fun state _ => Logs.refl (look state)

theorem Costs.mono {program : EStateM Stop State Value}
    (hcosts : Costs look left program) (hle : left ≤ right) : Costs look right program :=
  fun state hsize => (hcosts state hsize).imp
    (fun _ _ hlogs => hlogs.mono hle) fun _ _ hlogs => hlogs.mono hle

theorem Costs.bind {program : EStateM Stop State Value} {rest : Value → EStateM Stop State Result}
    (hfirst : Costs look left program) (hrest : ∀ value, Costs look right (rest value))
    (hcount : left + right ≤ count) : Costs look count (program >>= rest) := by
  intro state hsize
  apply Ensures.bind ((hfirst state hsize).imp (fun _ _ hlogs => hlogs)
    fun _ _ hlogs => hlogs.mono (by omega))
  intro value middle hmiddle
  apply (hrest value middle (hmiddle.sb_eq ▸ hsize)).imp
  · exact fun _ _ hlogs => (hmiddle.trans hlogs).mono hcount
  · exact fun _ _ hlogs => (hmiddle.trans hlogs).mono hcount

theorem Costs.after {program : EStateM Stop State Value} {rest : Value → EStateM Stop State Result}
    (hrest : ∀ value, Costs look count (rest value))
    (hfirst : Costs look 0 program) : Costs look count (program >>= rest) :=
  hfirst.bind hrest (Nat.zero_add count).le

theorem Costs.before {program : EStateM Stop State Value} {rest : Value → EStateM Stop State Result}
    (hfirst : Costs look count program) (hrest : ∀ value, Costs look 0 (rest value)) :
    Costs look count (program >>= rest) :=
  hfirst.bind hrest (Nat.le_refl count)

theorem Costs.ite {condition : Prop} [Decidable condition]
    {yes no : EStateM Stop State Value} (hyes : Costs look count yes) (hno : Costs look count no) :
    Costs look count (if condition then yes else no) := by
  split
  · exact hyes
  · exact hno

end Costs

/-! ## Writing to an inode -/

variable {Value : Type}

abbrev FsCosts (count : ℕ) (program : FsM Value) : Prop :=
  Costs id count program

theorem costs_bread (blockno : ℕ) : FsCosts 0 (bread blockno) :=
  fun vol _ => Logs.refl vol

theorem ensures_logStep_logs {step : LoggedDisk → Except Stop LoggedDisk}
    {event : Event} {vol : Volume} (blocks : Finset UInt32)
    (hblocks : ∀ blockno ∈ loggedBlocks [event],
      blockno = .ofNat vol.sb.bmapstart ∨ blockno ∈ blocks) :
    Ensures (Volume.logStep step event) vol
      (fun _ => Logs blocks.card vol) fun _ => Logs blocks.card vol := by
  rw [ensures_logStep]
  split
  · exact Logs.of_events rfl rfl hblocks
  · exact Logs.of_events rfl rfl hblocks

theorem costs_logWrite (blockno : UInt32) (data : Block) : FsCosts 1 (logWrite blockno data) := by
  intro vol _
  apply ensures_logStep_logs {blockno}
  intro other hother
  exact .inr (by simpa [loggedBlocks] using hother)

/-- With a single bitmap block only that block is logged. -/
theorem costs_alloc : FsCosts 0 alloc := by
  intro vol hsize
  rw [alloc]
  simp only [ensures_bind, ensures_get]
  have hrounds : (vol.sb.size + bpb - 1) / bpb ≤ 1 := by
    change vol.sb.size ≤ 8192 at hsize
    change (vol.sb.size + 8192 - 1) / 8192 ≤ 1
    omega
  change Ensures (allocFrom ((vol.sb.size + bpb - 1) / bpb) 0) vol _ _
  cases hcount : (vol.sb.size + bpb - 1) / bpb with
  | zero => exact Logs.refl vol
  | succ more =>
    obtain rfl : more = 0 := by omega
    rw [allocFrom]
    simp only [ensures_bind, ensures_get, ensures_bread]
    split
    · apply ensures_bind.mpr
      apply ensures_logStep_logs ∅
      intro other hother
      left
      simpa [loggedBlocks, SuperBlock.locateBmp] using hother
    · exact Logs.refl vol

theorem costs_update (idata : InodeData) : FsCosts 1 idata.update := by
  intro vol hsize
  rw [InodeData.update, findInode]
  simp only [ensures_bind, ensures_get, SuperBlock.locateInode]
  split
  · exact (Logs.refl vol).mono (Nat.zero_le _)
  · exact costs_logWrite _ _ vol hsize

/-- The last part of `map` in the indirect range. -/
theorem costs_mapSlot (idata : InodeData) (slot : ℕ) :
    FsCosts 1 (do
      let addrBlock := idata.dinode.addr ndirect
      let buf ← bread addrBlock.toNat
      if u32At buf (4 * slot) = 0 then do
        let addr ← BitMap.alloc
        logWrite addrBlock (writeU32 buf (4 * slot) addr)
        return (addr, idata)
      else return (0, idata)) := by
  refine Costs.after (fun buf => Costs.ite ?_ ?_) (costs_bread _)
  · apply Costs.after (fun addr => ?_) costs_alloc
    exact (costs_logWrite _ _).before fun _ => costs_pure _
  · exact (costs_pure _).mono (Nat.zero_le _)

/-- `map` logs a block of the inode in the indirect range only. -/
theorem costs_map (idata : InodeData) (index : ℕ) : FsCosts 1 (idata.map index) := by
  refine Costs.ite (Costs.ite ?_ ?_) (Costs.ite (Costs.ite ?_ ?_) ?_)
  · exact (costs_alloc.before fun addr => costs_pure _).mono (Nat.zero_le _)
  · exact (costs_pure _).mono (Nat.zero_le _)
  · apply Costs.after (fun addrBufNum => ?_) costs_alloc
    exact Costs.after (fun idata => costs_mapSlot idata _) (costs_pure _)
  · exact Costs.after (fun idata => costs_mapSlot idata _) (costs_pure _)
  · exact (costs_pure _).mono (Nat.zero_le _)

def rounds (offset count : ℕ) : ℕ :=
  if count = 0 then 0 else (offset % bsize + count + bsize - 1) / bsize

theorem rounds_step {offset count : ℕ} (hcount : count ≠ 0) :
    rounds (offset + min count (bsize - offset % bsize))
        (count - min count (bsize - offset % bsize)) + 1 ≤ rounds offset count := by
  have hbsize : bsize = 1024 := rfl
  unfold rounds
  rw [if_neg hcount, hbsize]
  split
  · omega
  · omega

/-- Every round logs a data block and perhaps an indirect block. -/
theorem costs_writeLoop (fuel offset : ℕ) (idata : InodeData) (data : List UInt8) :
    FsCosts (2 * rounds offset data.length) (InodeData.writeLoop fuel idata offset data) := by
  induction fuel generalizing offset idata data with
  | zero => exact (costs_pure _).mono (Nat.zero_le _)
  | succ fuel ih =>
    rw [InodeData.writeLoop]
    by_cases hempty : data.length = 0
    · rw [if_pos hempty]
      exact (costs_pure _).mono (Nat.zero_le _)
    · have hstep : rounds (offset + min data.length (bsize - offset % bsize))
          (data.length - min data.length (bsize - offset % bsize)) + 1 ≤
            rounds offset data.length := rounds_step hempty
      rw [if_neg hempty]
      have hrest : ∀ mapped : UInt32 × InodeData, FsCosts (1 + 2 * rounds
          (offset + min data.length (bsize - offset % bsize))
          (data.length - min data.length (bsize - offset % bsize))) (do
        let buf ← bread mapped.1.toNat
        let readLen := min data.length (bsize - offset % bsize)
        logWrite mapped.1 (splice buf (offset % bsize) (data.take readLen))
        InodeData.writeLoop fuel mapped.2 (offset + readLen) (data.drop readLen)) := by
        intro mapped
        apply Costs.after (fun buf => ?_) (costs_bread _)
        apply (costs_logWrite _ _).bind (fun _ => ih _ _ _)
        rw [List.length_drop]
      exact (costs_map idata (offset / bsize)).bind hrest (by omega)

theorem costs_write (idata : InodeData) (offset : UInt32) (data : List UInt8) :
    FsCosts (2 * rounds offset.toNat data.length + 1) (idata.write offset data) := by
  apply (costs_writeLoop _ _ _ _).bind _ (Nat.le_refl _)
  intro written
  exact (costs_update _).before fun _ => costs_pure _

end RxOs.LogCosts
