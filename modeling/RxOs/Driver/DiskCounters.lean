import RxOs.Driver.DiskRequests

/-!
# The counters of the virtio disk

The counters of the two rings in any run of the driver, with the roll-back of
`alloc3_desc` as it is.  Every request that is waited for has the end of a chain
of descriptors for its own, whichever descriptors these are, and every entry of
a ring has a request that waits for it.  The rings are therefore never full, and
the only thing that can go wrong with the counters is the overflow check for
`avail.idx`.
-/

namespace RxOs.DiskCounters

open Function Exec RingBuffer Transition VirtioDisk DescriptorLease
open DiskRequests (failed_issues issues_seeking)

variable {count : ℕ}

def waiting (inFlight : Fin count → Option (Request × Chain)) : Finset (Fin count) :=
  Finset.univ.filter fun proc => (inFlight proc).isSome = true

/-- The descriptors in use that end a chain. -/
def chainEnds (free : ℕ → Bool) (desc : ℕ → VQDesc) : Finset ℕ :=
  (Finset.range num).filter fun i => free i = false ∧ (desc i).flags &&& descNext = 0

/-- The heads of requests that the handler has seen to be completed and their
process has not. -/
def settled (info : ℕ → Info) : Finset ℕ :=
  (Finset.range num).filter fun i => (info i).bufChannel ≠ none ∧ (info i).disk = false

def Unlinked (free : ℕ → Bool) (desc : ℕ → VQDesc) : Prop :=
  ∀ i < num, free i = true → desc i = VQDesc.new

/-- The state of the driver and the device between two steps, with the given
requests in flight. -/
structure Kept (disk : Disk) (service : List ℕ)
    (inFlight : Fin count → Option (Request × Chain)) : Prop where
  unlinked : Unlinked disk.free disk.desc
  counted : disk.used.nwrite + service.length = disk.avail.nread
  avail : disk.avail.nread ≤ disk.avail.nwrite
  used : disk.used.nread ≤ disk.used.nwrite
  small : disk.avail.nwrite < indexLimit
  pending : disk.avail.nwrite + (settled disk.info).card ≤ disk.used.nread + (waiting inFlight).card
  chained : (waiting inFlight).card ≤ (chainEnds disk.free disk.desc).card

/-! ## Counting -/

section Counting

variable {inFlight : Fin count → Option (Request × Chain)} {proc : Fin count}
variable {free : ℕ → Bool} {desc : ℕ → VQDesc} {info : ℕ → Info} {i : ℕ}

theorem card_waiting_some (value : Request × Chain) (hnone : inFlight proc = none) :
    (waiting (update inFlight proc (some value))).card = (waiting inFlight).card + 1 := by
  have hinsert : waiting (update inFlight proc (some value)) = insert proc (waiting inFlight) := by
    ext other
    by_cases hother : other = proc
    · simp [waiting, hother]
    · simp [waiting, hother]
  rw [hinsert, Finset.card_insert_of_notMem]
  simp [waiting, hnone]

theorem card_waiting_none {value : Request × Chain} (hsome : inFlight proc = some value) :
    (waiting (update inFlight proc none)).card + 1 = (waiting inFlight).card := by
  have herase : waiting (update inFlight proc none) = (waiting inFlight).erase proc := by
    ext other
    by_cases hother : other = proc
    · simp [waiting, hother]
    · simp [waiting, hother]
  rw [herase, Finset.card_erase_add_one]
  simp [waiting, hsome]

theorem card_chainEnds_le (free : ℕ → Bool) (desc : ℕ → VQDesc) :
    (chainEnds free desc).card ≤ num := by
  apply (Finset.card_filter_le _ _).trans
  rw [Finset.card_range]

theorem mem_chainEnds : i ∈ chainEnds free desc ↔
    i < num ∧ free i = false ∧ (desc i).flags &&& descNext = 0 := by
  rw [chainEnds, Finset.mem_filter, Finset.mem_range]

/-- A descriptor that is freed was at most one end of a chain. -/
theorem card_chainEnds_free :
    (chainEnds free desc).card ≤
      (chainEnds (update free i true) (update desc i VQDesc.new)).card + 1 := by
  have hsub : chainEnds free desc ⊆
      insert i (chainEnds (update free i true) (update desc i VQDesc.new)) := by
    intro j hj
    rw [Finset.mem_insert]
    by_cases hsame : j = i
    · exact Or.inl hsame
    · apply Or.inr
      rw [mem_chainEnds, update_of_ne hsame, update_of_ne hsame]
      exact mem_chainEnds.mp hj
  exact (Finset.card_le_card hsub).trans (Finset.card_insert_le _ _)

/-- A descriptor that is linked to another one is not the end of a chain. -/
theorem card_chainEnds_linked (hlinked : (desc i).flags &&& descNext ≠ 0) :
    (chainEnds free desc).card ≤
      (chainEnds (update free i true) (update desc i VQDesc.new)).card := by
  apply Finset.card_le_card
  intro j hj
  obtain ⟨hlt, hfree, hlast⟩ := mem_chainEnds.mp hj
  have hne : j ≠ i := by
    rintro rfl
    exact hlinked hlast
  rw [mem_chainEnds, update_of_ne hne, update_of_ne hne]
  exact ⟨hlt, hfree, hlast⟩

theorem Unlinked.give (hunlinked : Unlinked free desc) :
    Unlinked (update free i true) (update desc i VQDesc.new) := by
  intro j hj hopen
  by_cases hsame : j = i
  · rw [hsame, update_self]
  · rw [update_of_ne hsame] at hopen ⊢
    exact hunlinked j hj hopen

/-- The roll-back frees as many descriptors as were free, so that no fewer ends
of chains are left. -/
theorem card_chainEnds_giveFirst {machine : Machine count}
    (hunlinked : Unlinked machine.disk.free machine.disk.desc) :
    (chainEnds machine.disk.free machine.disk.desc).card ≤ (chainEnds
        (giveFirst (openSlots machine.disk).card (takeAll machine)).disk.free
        (giveFirst (openSlots machine.disk).card (takeAll machine)).disk.desc).card := by
  have hdisjoint : Disjoint (chainEnds machine.disk.free machine.disk.desc)
      (openSlots machine.disk) := by
    rw [Finset.disjoint_left]
    intro j hj hopen
    have htaken := (mem_chainEnds.mp hj).2.1
    rw [(mem_openSlots.mp hopen).2] at htaken
    cases htaken
  have hleft := Finset.le_card_sdiff (Finset.range (openSlots machine.disk).card)
    (chainEnds machine.disk.free machine.disk.desc ∪ openSlots machine.disk)
  rw [Finset.card_union_of_disjoint hdisjoint, Finset.card_range, Nat.add_sub_cancel_right] at hleft
  apply hleft.trans
  apply Finset.card_le_card
  intro j hj
  obtain ⟨hmem, hlast⟩ := Finset.mem_sdiff.mp hj
  rw [Finset.mem_range] at hlast
  have hend : j < num ∧ (machine.disk.desc j).flags &&& descNext = 0 := by
    rcases Finset.mem_union.mp hmem with hends | hopen
    · exact ⟨(mem_chainEnds.mp hends).1, (mem_chainEnds.mp hends).2.2⟩
    · obtain ⟨hlt, hfree⟩ := mem_openSlots.mp hopen
      rw [hunlinked j hlt hfree]
      exact ⟨hlt, rfl⟩
  rw [mem_chainEnds]
  dsimp only [giveFirst, takeAll]
  rw [if_pos hend.1, if_neg hlast, decide_eq_false hlast]
  exact ⟨hend.1, rfl, hend.2⟩

theorem unlinked_giveFirst {machine : Machine count} (taken : ℕ) :
    Unlinked (giveFirst taken (takeAll machine)).disk.free
      (giveFirst taken (takeAll machine)).disk.desc := by
  intro j hj hopen
  dsimp only [giveFirst, takeAll] at hopen ⊢
  rw [if_pos hj, Bool.or_false, decide_eq_true_iff] at hopen
  rw [if_pos hopen]

/-- A request that is formatted brings the end of its chain. -/
theorem card_chainEnds_format {disk : Disk} {chain : Chain}
    (request : Request) (hnodup : chain.members.Nodup)
    (hopen : ∀ j ∈ chain.members, j ∈ openSlots disk) :
    (chainEnds disk.free disk.desc).card + 1 ≤
      (chainEnds (update (update (update disk.free chain.head false) chain.body
        false) chain.tail false) (format request chain disk).desc).card := by
  have hfree : ∀ j ∈ chain.members, j ∉ chainEnds disk.free disk.desc := by
    intro j hj hmem
    have htaken := (mem_chainEnds.mp hmem).2.1
    rw [(mem_openSlots.mp (hopen j hj)).2] at htaken
    cases htaken
  have htail : chain.tail ∈ chain.members := by simp [Chain.members]
  rw [← Finset.card_insert_of_notMem (hfree chain.tail htail)]
  apply Finset.card_le_card
  intro j hj
  rw [mem_chainEnds, update_members]
  rcases Finset.mem_insert.mp hj with rfl | hend
  · rw [if_pos htail, (formatted_format hnodup).tail]
    exact ⟨(mem_openSlots.mp (hopen _ htail)).1, rfl, (by decide : descWrite &&& descNext = 0)⟩
  · have hout : j ∉ chain.members := fun hmem => hfree j hmem hend
    rw [if_neg hout, format_desc hout]
    exact mem_chainEnds.mp hend

theorem mem_settled : i ∈ settled info ↔
    i < num ∧ (info i).bufChannel ≠ none ∧ (info i).disk = false := by
  rw [settled, Finset.mem_filter, Finset.mem_range]

theorem settled_update_subset {value : Info} :
    settled (update info i value) ⊆ insert i (settled info) := by
  intro j hj
  rw [Finset.mem_insert]
  by_cases hsame : j = i
  · exact Or.inl hsame
  · rw [mem_settled, update_of_ne hsame] at hj
    exact Or.inr (mem_settled.mpr hj)

theorem card_settled_update_le {value : Info} :
    (settled (update info i value)).card ≤ (settled info).card + 1 :=
  (Finset.card_le_card settled_update_subset).trans (Finset.card_insert_le _ _)

/-- A cell that is not settled afterwards. -/
theorem settled_update_of_not {value : Info}
    (hvalue : value.bufChannel = none ∨ value.disk = true) :
    settled (update info i value) = (settled info).erase i := by
  ext j
  rw [Finset.mem_erase, mem_settled, mem_settled]
  by_cases hsame : j = i
  · rw [hsame, update_self]
    rcases hvalue with hnone | hdisk
    · simp [hnone]
    · simp [hdisk]
  · simp [hsame]

end Counting

/-! ## Steps -/

section Steps

variable {machine next : Machine count} {disk : Disk} {service : List ℕ}
variable {inFlight : Fin count → Option (Request × Chain)}
variable {proc : Fin count} {request : Request} {chain : Chain}

theorem kept_boot : Kept (boot : Machine count).disk [] fun _ : Fin count =>
    none where
  unlinked := fun _ _ _ => rfl
  counted := rfl
  avail := le_refl 0
  used := le_refl 0
  small := (by decide : 0 < indexLimit)
  pending := by simp [settled, boot]
  chained := by simp [waiting]

theorem Kept.bound (hkept : Kept disk service inFlight) :
    disk.avail.nwrite ≤ disk.used.nread + (chainEnds disk.free disk.desc).card := by
  have hpending := hkept.pending
  have hchained := hkept.chained
  omega

theorem Kept.bounded_used (hkept : Kept disk service inFlight) : Bounded num disk.used := by
  have hbound := hkept.bound
  have hcard := card_chainEnds_le disk.free disk.desc
  have hcounted := hkept.counted
  have havail := hkept.avail
  exact ⟨hkept.used, by omega⟩

/-- The device takes a request from the avail ring. -/
theorem Kept.fetch (hkept : Kept disk service inFlight)
    (hsome : disk.avail.nread ≠ disk.avail.nwrite) (head : ℕ) :
    Kept { disk with avail := pop disk.avail } (head :: service) inFlight := by
  have hcounted := hkept.counted
  have havail := hkept.avail
  refine ⟨hkept.unlinked, ?_, ?_, hkept.used, hkept.small, hkept.pending, hkept.chained⟩
  · change disk.used.nwrite + (service.length + 1) = disk.avail.nread + 1
    omega
  · change disk.avail.nread + 1 ≤ disk.avail.nwrite
    omega

/-- The device completes a request. -/
theorem Kept.complete (hkept : Kept disk service inFlight) {head : ℕ} (hhead : head ∈ service) :
    disk.used.nwrite ≠ disk.used.nread + num ∧
      Kept { disk with
          used := push num head disk.used
          info := update disk.info head { disk.info head with status := 0 } }
        (service.erase head) inFlight := by
  have hcounted := hkept.counted
  have havail := hkept.avail
  have hused := hkept.used
  have hlength := List.length_erase_add_one hhead
  have hbound := hkept.bound
  have hcard := card_chainEnds_le disk.free disk.desc
  have hsettled : settled (update disk.info head
      { disk.info head with status := 0 }) = settled disk.info := by
    ext j
    rw [mem_settled, mem_settled]
    by_cases hsame : j = head
    · rw [hsame, update_self]
    · rw [update_of_ne hsame]
  refine ⟨by omega, hkept.unlinked, ?_, hkept.avail, ?_, hkept.small, ?_, hkept.chained⟩
  · change disk.used.nwrite + 1 + (service.erase head).length = disk.avail.nread
    omega
  · change disk.used.nread ≤ disk.used.nwrite + 1
    omega
  · dsimp only
    rw [hsettled]
    exact hkept.pending

/-- The driver sees that a request is completed. -/
theorem Kept.consume (hkept : Kept disk service inFlight)
    (hsome : disk.used.nread ≠ disk.used.nwrite) (head : ℕ) (value : Info) :
    disk.used.nread + 1 ≠ indexLimit ∧
      Kept { disk with
          info := update disk.info head value
          used := pop disk.used } service inFlight := by
  have hcounted := hkept.counted
  have havail := hkept.avail
  have hused := hkept.used
  have hsmall := hkept.small
  have hpending := hkept.pending
  have hsettled : (settled (update disk.info head value)).card ≤
      (settled disk.info).card + 1 := card_settled_update_le
  refine ⟨by omega, hkept.unlinked, hkept.counted, hkept.avail, ?_, hkept.small, ?_, hkept.chained⟩
  · change disk.used.nread + 1 ≤ disk.used.nwrite
    omega
  · change disk.avail.nwrite + (settled (update disk.info head value)).card ≤
      disk.used.nread + 1 + (waiting inFlight).card
    omega

/-- A process publishes a request. -/
theorem Kept.publish (request : Request) (hkept : Kept disk service inFlight)
    (hnone : inFlight proc = none) (hnodup : chain.members.Nodup)
    (hopen : ∀ i ∈ chain.members, i ∈ openSlots disk)
    (hsmall : disk.avail.nwrite + 1 ≠ indexLimit) {taken : Disk}
    (htaken : taken = format request chain { disk with
      free := update (update (update disk.free chain.head false)
        chain.body false) chain.tail false }) :
    disk.avail.nwrite < disk.avail.nread + num ∧
      Kept { taken with avail := push num chain.head taken.avail } service
        (update inFlight proc (some (request, chain))) := by
  subst htaken
  have hcounted := hkept.counted
  have havail := hkept.avail
  have hused := hkept.used
  have hbelow := hkept.small
  have hpending := hkept.pending
  have hchained := hkept.chained
  have hbound := hkept.bound
  have hcard := card_waiting_some (request, chain) hnone
  have hends := card_chainEnds_format request hnodup hopen
  have hroom := hends.trans (card_chainEnds_le _ _)
  have hsettled : (settled (update disk.info chain.head
      ⟨some request.data, 255, true⟩)).card ≤ (settled disk.info).card := by
    rw [settled_update_of_not (Or.inr rfl)]
    exact Finset.card_erase_le
  refine ⟨by omega, ?_, hkept.counted, ?_, hkept.used, ?_, ?_, ?_⟩
  · intro j hj hfree
    dsimp only [format] at hfree
    rw [update_members] at hfree
    split at hfree
    · cases hfree
    · next hout => exact (format_desc hout).trans (hkept.unlinked j hj hfree)
  · change disk.avail.nread ≤ disk.avail.nwrite + 1
    omega
  · change disk.avail.nwrite + 1 < indexLimit
    omega
  · rw [hcard]
    change disk.avail.nwrite + 1 + (settled (update disk.info chain.head
      ⟨some request.data, 255, true⟩)).card ≤ _
    dsimp only [format]
    omega
  · rw [hcard]
    exact (Nat.add_le_add_right hchained 1).trans hends

theorem Kept.fail (hkept : Kept machine.disk machine.service (issues machine.threads)) :
    Kept (giveFirst (openSlots machine.disk).card (takeAll machine)).disk
      machine.service (issues machine.threads) :=
  ⟨unlinked_giveFirst _, hkept.counted, hkept.avail, hkept.used, hkept.small, hkept.pending,
    hkept.chained.trans (card_chainEnds_giveFirst hkept.unlinked)⟩

/-- What the code does with descriptors that it frees, up to the ends of
chains. -/
structure Freed (ends : ℕ) (machine next : Machine count) : Prop where
  frame : ∃ desc free threads, next = { machine with
    disk := { machine.disk with desc := desc, free := free }
    threads := threads }
  threads : issues next.threads = issues machine.threads
  unlinked : Unlinked machine.disk.free machine.disk.desc → Unlinked next.disk.free next.disk.desc
  chainEnds : (chainEnds machine.disk.free machine.disk.desc).card ≤
    (chainEnds next.disk.free next.disk.desc).card + ends

theorem Freed.trans {ends more : ℕ} {last : Machine count}
    (hfirst : Freed ends machine next) (hrest : Freed more next last) :
    Freed (ends + more) machine last := by
  obtain ⟨⟨desc, free, threads, rfl⟩, hissues, hunlinked, hends⟩ := hfirst
  obtain ⟨⟨desc', free', threads', rfl⟩, hissues', hunlinked', hends'⟩ := hrest
  exact ⟨⟨desc', free', threads', rfl⟩, hissues'.trans hissues,
    fun hbefore => hunlinked' (hunlinked hbefore), by omega⟩

theorem freed_give {i : ℕ} : Freed 1 machine (give i machine) :=
  ⟨⟨_, _, _, rfl⟩, issues_wakeUp _ _, Unlinked.give, card_chainEnds_free⟩

theorem freed_give_linked {i : ℕ} (hlinked : (machine.disk.desc i).flags &&& descNext ≠ 0) :
    Freed 0 machine (give i machine) :=
  ⟨⟨_, _, _, rfl⟩, issues_wakeUp _ _, Unlinked.give, card_chainEnds_linked hlinked⟩

/-- `free_chain` frees one end of a chain, whatever the links are. -/
theorem ensures_freeChain_freed (turns i : ℕ) (machine : Machine count) :
    Ensures (freeChain turns i) machine (fun _ next => i < num ∧ Freed 1 machine next)
      fun cause _ => cause ≠ .overflow := by
  induction turns generalizing i machine with
  | zero =>
    change Panic.descIndex ≠ .overflow
    decide
  | succ turns ih =>
    rw [freeChain, ensures_bind, ensures_get, ensures_ite]
    constructor
    · intro _
      change Panic.outOfBounds ≠ .overflow
      decide
    · intro hlt
      have hfreed : Ensures (freeDesc i) machine (fun _ next => next = give i machine)
          fun cause _ => cause ≠ .overflow := by
        rw [freeDesc, ensures_bind, ensures_get, ensures_ite]
        exact ⟨fun _ => (by decide : Panic.descIndex ≠ .overflow), fun _ => rfl⟩
      apply hfreed.bind
      rintro _ next rfl
      rw [ensures_ite]
      constructor
      · intro hlinked
        apply (ih (machine.disk.desc i).next (give i machine)).imp_returned
        rintro _ last ⟨-, hlast⟩
        exact ⟨not_le.mp hlt, (freed_give_linked hlinked).trans hlast⟩
      · intro _
        exact ⟨not_le.mp hlt, freed_give⟩

/-- A process that waits for the disk goes on. -/
theorem ensures_await_kept (hissue : issues machine.threads proc = some (request, chain))
    (hkept : Kept machine.disk machine.service (issues machine.threads)) :
    Ensures (await proc request chain) machine
      (fun _ next => Kept next.disk next.service (issues next.threads) ∧
        next.panic = machine.panic ∧ next.disk.avail = machine.disk.avail ∧
        next.disk.used = machine.disk.used) fun cause _ => cause ≠ .overflow := by
  rw [await, ensures_bind, ensures_get]
  dsimp only
  rw [ensures_ite]
  constructor
  · intro _
    refine ⟨?_, rfl, rfl, rfl⟩
    dsimp only
    rw [issues_update, update_eq_self_iff.mpr]
    · exact hkept
    · exact hissue.symm
  · intro hflag
    rw [ensures_bind, ensures_modifyDisk, ensures_ite]
    refine ⟨fun _ => (by decide : Panic.noChannel ≠ .overflow), ?_⟩
    intro hchannel
    rw [ensures_ite]
    refine ⟨fun _ => (by decide : Panic.channelMismatch ≠ .overflow), ?_⟩
    intro _
    apply (ensures_freeChain_freed _ _ _).bind
    rintro _ middle ⟨hlt, ⟨desc, free, threads, rfl⟩, hissues, hunlinked, hends⟩
    refine ⟨?_, rfl, rfl, rfl⟩
    dsimp only at hissues hunlinked hends ⊢
    rw [issues_update, hissues]
    have hcard := card_waiting_none hissue
    have hchained := hkept.chained
    have hpending := hkept.pending
    have hmem : chain.head ∈ settled machine.disk.info :=
      mem_settled.mpr ⟨hlt, hchannel, Bool.eq_false_iff.mpr hflag⟩
    have hsettled := Finset.card_erase_add_one hmem
    refine ⟨hunlinked hkept.unlinked, hkept.counted, hkept.avail, hkept.used, hkept.small, ?_, ?_⟩
    · dsimp only [issue]
      rw [settled_update_of_not (Or.inl rfl)]
      omega
    · dsimp only [issue]
      omega

/-- The next request that is published makes the index of the avail ring
overflow. -/
def Overflows (disk : Disk) : Prop :=
  3 ≤ (openSlots disk).card ∧ disk.avail.nwrite + 1 = indexLimit

/-- The slot of the next entry of the avail ring has no entry that the device
has still to read. -/
def Vacant (avail : Buffer ℕ) : Prop :=
  ∀ number, avail.nread ≤ number → number < avail.nwrite → number % num ≠ avail.nwrite % num

theorem vacant_of_lt {avail : Buffer ℕ}
    (hroom : avail.nwrite < avail.nread + num) : Vacant avail := by
  intro number hread hwritten hsame
  have hmod : (avail.nwrite - number) % num = 0 := Nat.sub_mod_eq_zero_of_mod_eq hsame.symm
  rw [Nat.mod_eq_of_lt (by omega)] at hmod
  omega

theorem ensures_attempt_kept (hthread : machine.threads proc = .seeking request false)
    (hkept : Kept machine.disk machine.service (issues machine.threads)) :
    Ensures (attempt proc request) machine
      (fun _ next => Kept next.disk next.service (issues next.threads) ∧
        next.panic = machine.panic ∧ next.disk.used = machine.disk.used ∧
        (next.disk.avail ≠ machine.disk.avail → Vacant machine.disk.avail) ∧
        ¬Overflows machine.disk) fun cause _ => cause = .overflow ∧ Overflows machine.disk := by
  have hissue := issues_seeking hthread
  rw [attempt]
  refine Ensures.bind ((ensures_alloc3Desc machine).imp (fun _ _ => id) fun _ _ => False.elim) ?_
  rintro _ _ (⟨chain, rfl, hnodup, hopen, rfl⟩ | ⟨hcard, rfl, rfl⟩)
  · have hthree : 3 ≤ (openSlots machine.disk).card := by
      have hsub : chain.members.toFinset ⊆ openSlots machine.disk :=
        fun i hi => hopen i (List.mem_toFinset.mp hi)
      have hle := Finset.card_le_card hsub
      rwa [List.toFinset_card_of_nodup hnodup] at hle
    rw [ensures_bind, ensures_modifyDisk, ensures_bind, ensures_get, ensures_ite]
    refine ⟨fun hlimit => ⟨rfl, hthree, hlimit⟩, ?_⟩
    intro hsmall
    obtain ⟨hroom, hpublished⟩ := hkept.publish request hissue hnodup hopen hsmall rfl
    have hflag : ((update machine.disk.info chain.head
        ⟨some request.data, 255, true⟩) chain.head).disk = true := by rw [update_self]
    rw [ensures_bind, ensures_modifyDisk, await, ensures_bind, ensures_get, ensures_ite]
    refine ⟨fun _ => ⟨?_, rfl, rfl, fun _ => vacant_of_lt hroom,
      fun hover => hsmall hover.2⟩, fun hclear => absurd hflag hclear⟩
    dsimp only
    rw [issues_update]
    exact hpublished
  · refine ⟨?_, rfl, rfl, fun hchanged => absurd rfl hchanged,
      fun hover => absurd hover.1 hcard.not_ge⟩
    dsimp only
    rw [failed_issues _ hthread]
    exact hkept.fail

theorem ensures_turn_kept (hsome : machine.disk.used.nread ≠ machine.disk.used.nwrite)
    (hkept : Kept machine.disk machine.service (issues machine.threads)) :
    Ensures turn machine (fun _ next => Kept next.disk next.service (issues next.threads) ∧
        next.panic = machine.panic ∧ next.disk.avail = machine.disk.avail ∧
        next.disk.used = pop machine.disk.used) fun cause _ => cause ≠ .overflow := by
  have hturn := hkept.consume hsome (machine.disk.used.data (machine.disk.used.nread % num))
  rw [turn, ensures_bind, ensures_get]
  dsimp only
  rw [ensures_ite]
  refine ⟨fun _ => (by decide : Panic.outOfBounds ≠ .overflow), fun _ => ?_⟩
  rw [ensures_ite]
  refine ⟨fun _ => (by decide : Panic.interruptStatus ≠ .overflow), fun _ => ?_⟩
  split
  · exact (by decide : Panic.noChannel ≠ .overflow)
  · rw [ensures_bind, ensures_modify, if_neg (hturn ⟨none, 0, false⟩).1, ensures_modifyDisk]
    refine ⟨?_, rfl, rfl, rfl⟩
    dsimp only
    rw [issues_wakeUp]
    exact (hturn _).2

end Steps

end RxOs.DiskCounters
