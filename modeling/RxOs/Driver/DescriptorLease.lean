import RxOs.Core.Lease
import RxOs.Driver.VirtioDisk

/-!
# Descriptors of the virtio disk

What the functions of the driver do to the descriptors, and the state of the
driver between two steps: the descriptors in use are the disjoint union of the
chains of the requests in flight, and every request in flight that is not done
is in one of the rings or with the device.
-/

namespace RxOs.DescriptorLease

open Function Exec Lease RingBuffer Transition VirtioDisk

variable {count : ℕ}

/-! ## Requests in flight -/

def issue : Thread → Option (Request × Chain)
  | .issued request chain _ => some (request, chain)
  | _ => none

def slots : Option (Request × Chain) → List ℕ
  | some (_, chain) => chain.members
  | none => []

def issues (threads : Fin count → Thread) : Fin count → Option (Request × Chain) :=
  fun proc => issue (threads proc)

@[simp]
theorem issue_awaken (thread : Thread) : issue thread.awaken = issue thread := by
  cases thread <;> rfl

@[simp]
theorem issues_wakeUp (channel : Channel) (threads : Fin count → Thread) :
    issues (wakeUp channel threads) = issues threads := by
  funext proc
  change issue (ite _ _ _) = issue (threads proc)
  split
  · exact issue_awaken _
  · rfl

theorem issues_update (threads : Fin count → Thread) (proc : Fin count) (thread : Thread) :
    issues (update threads proc thread) = update (issues threads) proc (issue thread) := by
  funext other
  exact apply_update (fun _ => issue) threads proc thread other

theorem wakeUp_wakeUp (channel : Channel) (threads : Fin count → Thread) :
    wakeUp channel (wakeUp channel threads) = wakeUp channel threads := by
  funext proc
  have hawake : (threads proc).awaken.channel = none := by
    cases threads proc <;> rfl
  by_cases hasleep : (threads proc).channel = some channel
  · simp [wakeUp, hasleep, hawake]
  · simp [wakeUp, hasleep]

/-! ## The functions of the driver -/

def Taken (disk : Disk) (i : ℕ) : Prop := i < num ∧ disk.free i = false

def openSlots (disk : Disk) : Finset ℕ :=
  (Finset.range num).filter fun i => disk.free i = true

theorem mem_openSlots {disk : Disk} {i : ℕ} :
    i ∈ openSlots disk ↔ i < num ∧ disk.free i = true := by
  rw [openSlots, Finset.mem_filter, Finset.mem_range]

def take (i : ℕ) (machine : Machine count) : Machine count :=
  { machine with
    disk := { machine.disk with free := update machine.disk.free i false } }

/-- Mark a descriptor as free and wake those who wait for one. -/
def give (i : ℕ) (machine : Machine count) : Machine count :=
  { machine with
    disk := { machine.disk with
      desc := update machine.disk.desc i VQDesc.new
      free := update machine.disk.free i true }
    threads := wakeUp .free machine.threads }

def giveFirst (taken : ℕ) (machine : Machine count) : Machine count :=
  { machine with
    disk := { machine.disk with
      desc := fun i => if i < taken then VQDesc.new else machine.disk.desc i
      free := fun i => decide (i < taken) || machine.disk.free i }
    threads := if taken = 0 then machine.threads
      else wakeUp .free machine.threads }

theorem openSlots_take {machine : Machine count} {i : ℕ} :
    openSlots (take i machine).disk = (openSlots machine.disk).erase i := by
  ext j
  rw [Finset.mem_erase, mem_openSlots, mem_openSlots]
  change j < num ∧ update machine.disk.free i false j = true ↔ _
  by_cases hj : j = i
  · simp [hj]
  · simp [hj]

theorem ensures_modifyDisk {change : Disk → Disk} {machine : Machine count}
    {returned : PUnit → Machine count → Prop} {stopped : Panic → Machine count → Prop} :
    Ensures (modifyDisk change) machine returned stopped ↔
      returned ⟨⟩ { machine with disk := change machine.disk } := Iff.rfl

theorem ensures_allocDesc (machine : Machine count) :
    Ensures allocDesc machine (fun result next =>
        (openSlots machine.disk = ∅ ∧ result = none ∧ next = machine) ∨
          ∃ i ∈ openSlots machine.disk, result = some i ∧
            next = take i machine) fun _ _ => False := by
  rw [allocDesc, ensures_bind, ensures_get]
  cases hfind : (List.range num).find? machine.disk.free with
  | none =>
    refine Or.inl ⟨?_, rfl, rfl⟩
    rw [Finset.eq_empty_iff_forall_notMem]
    intro i hi
    obtain ⟨hlt, hfree⟩ := mem_openSlots.mp hi
    exact List.find?_eq_none.mp hfind i (List.mem_range.mpr hlt) hfree
  | some i =>
    have hi : i ∈ openSlots machine.disk := mem_openSlots.mpr
      ⟨List.mem_range.mp (List.mem_of_find?_eq_some hfind), List.find?_some hfind⟩
    exact Or.inr ⟨i, hi, rfl, rfl⟩

theorem ensures_freeDesc {machine : Machine count} {i : ℕ} (htaken : Taken machine.disk i) :
    Ensures (freeDesc i) machine (fun _ next => next = give i machine) fun _ _ => False := by
  rw [freeDesc, ensures_bind, ensures_get, ensures_ite]
  refine ⟨?_, fun _ => rfl⟩
  rintro (hle | hfree)
  · exact absurd htaken.1 hle.not_gt
  · rw [htaken.2] at hfree
    cases hfree

theorem give_giveFirst {machine : Machine count} (taken : ℕ) :
    give taken (giveFirst taken machine) = giveFirst (taken + 1) machine := by
  have hdesc : update (fun i => if i < taken then VQDesc.new
      else machine.disk.desc i) taken VQDesc.new =
      fun i => if i < taken + 1 then VQDesc.new else machine.disk.desc i := by
    funext i
    rcases lt_trichotomy i taken with hi | rfl | hi
    · rw [update_of_ne hi.ne, if_pos hi, if_pos (by omega)]
    · rw [update_self, if_pos (by omega)]
    · rw [update_of_ne hi.ne', if_neg (by omega), if_neg (by omega)]
  have hfree : update (fun i => decide (i < taken) || machine.disk.free i)
      taken true = fun i => decide (i < taken + 1) || machine.disk.free i := by
    funext i
    rcases lt_trichotomy i taken with hi | rfl | hi
    · rw [update_of_ne hi.ne, decide_eq_true hi, decide_eq_true (by omega)]
    · rw [update_self, decide_eq_true (by omega), Bool.true_or]
    · rw [update_of_ne hi.ne', decide_eq_false (by omega),
        decide_eq_false (by omega)]
  have hthreads : wakeUp .free (if taken = 0 then machine.threads
      else wakeUp .free machine.threads) = wakeUp .free machine.threads := by
    split
    · rfl
    · exact wakeUp_wakeUp _ _
  rw [give, giveFirst, giveFirst, if_neg (Nat.succ_ne_zero taken)]
  dsimp only
  rw [hdesc, hfree, hthreads]

/-- When no descriptor is free the roll-back frees the first ones. -/
theorem ensures_rollBack {machine : Machine count}
    (hnone : openSlots machine.disk = ∅) (taken : ℕ) (hle : taken ≤ num) :
    Ensures (rollBack taken) machine
      (fun _ next => next = giveFirst taken machine) fun _ _ => False := by
  induction taken with
  | zero =>
    change machine = _
    simp [giveFirst]
  | succ taken ih =>
    rw [rollBack, List.range_succ]
    change Ensures (forM (List.range taken ++ [taken]) freeDesc) _ _ _
    rw [List.forM_append, List.forM_cons, List.forM_nil]
    refine Ensures.bind (ih (by omega)) ?_
    rintro _ next rfl
    refine Ensures.bind (ensures_freeDesc ⟨by omega, ?_⟩) ?_
    · have hused : taken ∉ openSlots machine.disk := by
        rw [hnone]
        exact Finset.notMem_empty taken
      rw [mem_openSlots] at hused
      change (decide (taken < taken) || machine.disk.free taken) = false
      rw [decide_eq_false (lt_irrefl taken), Bool.false_or]
      exact Bool.eq_false_iff.mpr fun hfree => hused ⟨by omega, hfree⟩
    · rintro _ next rfl
      exact give_giveFirst taken

def takeAll (machine : Machine count) : Machine count :=
  { machine with
    disk := { machine.disk with
      free := fun i => if i < num then false else machine.disk.free i } }

theorem takeAll_take {machine : Machine count} {i : ℕ} (hi : i < num) :
    takeAll (take i machine) = takeAll machine := by
  have hfree : (fun j => if j < num then false
      else update machine.disk.free i false j) =
      fun j => if j < num then false else machine.disk.free j := by
    funext j
    split
    · rfl
    · rw [update_of_ne (by omega)]
  rw [takeAll, takeAll, take]
  dsimp only
  rw [hfree]

theorem takeAll_of_openSlots {machine : Machine count}
    (hnone : openSlots machine.disk = ∅) : takeAll machine = machine := by
  have hfree : (fun i => if i < num then false else machine.disk.free i) = machine.disk.free := by
    funext i
    split
    · next hi =>
        refine (Bool.eq_false_iff.mpr fun hfree => ?_).symm
        have hmem : i ∈ openSlots machine.disk := mem_openSlots.mpr ⟨hi, hfree⟩
        rw [hnone] at hmem
        cases hmem
    · rfl
  rw [takeAll, hfree]

/-- `alloc3_desc` takes three free descriptors.  If there are fewer, as many of
the first descriptors as there were free ones are free in the end. -/
theorem ensures_alloc3Desc (machine : Machine count) :
    Ensures alloc3Desc machine (fun result next =>
        (∃ chain, result = some chain ∧ chain.members.Nodup ∧
          (∀ i ∈ chain.members, i ∈ openSlots machine.disk) ∧
          next = take chain.tail (take chain.body (take chain.head machine))) ∨
        (openSlots machine.disk).card < 3 ∧ result = none ∧
          next = giveFirst (openSlots machine.disk).card (takeAll machine)) fun _ _ => False := by
  have hfail : ∀ (middle : Machine count) taken, taken < 3 → (openSlots machine.disk).card = taken →
      openSlots middle.disk = ∅ → takeAll middle = takeAll machine →
      Ensures (do rollBack taken; pure none : Driver count (Option Chain)) middle
        (fun result next => (openSlots machine.disk).card < 3 ∧ result = none ∧
          next = giveFirst (openSlots machine.disk).card (takeAll machine)) fun _ _ => False := by
    intro middle taken hlt hcard hnone hall
    rw [takeAll_of_openSlots hnone] at hall
    subst hall
    refine Ensures.bind (ensures_rollBack hnone taken ?_) ?_
    · rw [show num = 8 from rfl]
      omega
    · rintro _ next rfl
      exact ⟨by omega, rfl, by rw [hcard]⟩
  rw [alloc3Desc]
  refine Ensures.bind (ensures_allocDesc machine) ?_
  rintro _ _ (⟨hnone, rfl, rfl⟩ | ⟨head, hhead, rfl, rfl⟩)
  · exact (hfail _ 0 (by omega) (by rw [hnone]; rfl) hnone
      rfl).imp_returned fun _ _ => Or.inr
  have hheadCard := Finset.card_erase_add_one hhead
  rw [← openSlots_take] at hheadCard
  have hheadAll : takeAll (take head machine) = takeAll machine :=
    takeAll_take (mem_openSlots.mp hhead).1
  refine Ensures.bind (ensures_allocDesc _) ?_
  rintro _ _ (⟨hnone, rfl, rfl⟩ | ⟨body, hbody, rfl, rfl⟩)
  · rw [hnone, Finset.card_empty] at hheadCard
    exact (hfail _ 1 (by omega) hheadCard.symm hnone hheadAll).imp_returned fun _ _ => Or.inr
  have hbodyCard := Finset.card_erase_add_one hbody
  rw [← openSlots_take] at hbodyCard
  have hbodyAll : takeAll (take body (take head machine)) = takeAll _ :=
    takeAll_take (mem_openSlots.mp hbody).1
  refine Ensures.bind (ensures_allocDesc _) ?_
  rintro _ _ (⟨hnone, rfl, rfl⟩ | ⟨tail, htail, rfl, rfl⟩)
  · rw [hnone, Finset.card_empty] at hbodyCard
    exact (hfail _ 2 (by omega) (by omega) hnone
      (hbodyAll.trans hheadAll)).imp_returned fun _ _ => Or.inr
  · left
    rw [openSlots_take, openSlots_take, Finset.mem_erase, Finset.mem_erase] at htail
    rw [openSlots_take, Finset.mem_erase] at hbody
    refine ⟨⟨head, body, tail⟩, rfl, ?_, ?_, rfl⟩
    · simp [Chain.members, hbody.1.symm, htail.1.symm, htail.2.1.symm]
    · simp [Chain.members, hhead, hbody.2, htail.2.2]

/-- The descriptors of a request are as `rw` has written them. -/
structure Formatted (desc : ℕ → VQDesc) (request : Request) (chain : Chain) :
    Prop where
  head : desc chain.head = ⟨.op chain.head, 16, descNext, chain.body⟩
  body : desc chain.body = ⟨.data request.data, bsize,
    (if request.writing then 0 else descWrite) ||| descNext, chain.tail⟩
  tail : desc chain.tail = ⟨.status chain.head, 1, descWrite, 0⟩

theorem ensures_freeChain_turn {machine : Machine count} {turns i : ℕ}
    {returned : PUnit → Machine count → Prop} (htaken : Taken machine.disk i) (hrest : Ensures
      (if (machine.disk.desc i).flags &&& descNext ≠ 0 then
        freeChain turns (machine.disk.desc i).next else pure ⟨⟩)
      (give i machine) returned fun _ _ => False) :
    Ensures (freeChain (turns + 1) i) machine returned fun _ _ => False := by
  rw [freeChain, ensures_bind, ensures_get, if_neg htaken.1.not_ge]
  refine Ensures.bind (ensures_freeDesc htaken) ?_
  rintro _ next rfl
  exact hrest

/-- `free_chain` frees the three descriptors of a request. -/
theorem ensures_freeChain {machine : Machine count} {request : Request}
    {chain : Chain} (hnodup : chain.members.Nodup)
    (htaken : ∀ i ∈ chain.members, Taken machine.disk i)
    (hformatted : Formatted machine.disk.desc request chain) :
    Ensures (freeChain (num + 1) chain.head) machine (fun _ next => next =
        give chain.tail (give chain.body (give chain.head machine))) fun _ _ => False := by
  obtain ⟨⟨hheadBody, hheadTail⟩, hbodyTail⟩ : (chain.head ≠ chain.body ∧ chain.head ≠ chain.tail) ∧
        chain.body ≠ chain.tail := by simpa [Chain.members] using hnodup
  have htakenBody : Taken (give chain.head machine).disk chain.body := by
    refine ⟨(htaken chain.body (by simp [Chain.members])).1, ?_⟩
    change update machine.disk.free chain.head true chain.body = false
    rw [update_of_ne hheadBody.symm]
    exact (htaken chain.body (by simp [Chain.members])).2
  have htakenTail : Taken (give chain.body (give chain.head machine)).disk chain.tail := by
    refine ⟨(htaken chain.tail (by simp [Chain.members])).1, ?_⟩
    change update (update machine.disk.free chain.head true) chain.body true chain.tail = false
    rw [update_of_ne hbodyTail.symm, update_of_ne hheadTail.symm]
    exact (htaken chain.tail (by simp [Chain.members])).2
  have hdescBody : (give chain.head machine).disk.desc chain.body =
      machine.disk.desc chain.body := update_of_ne hheadBody.symm _ _
  have hdescTail : (give chain.body (give chain.head machine)).disk.desc
      chain.tail = machine.disk.desc chain.tail :=
    (update_of_ne hbodyTail.symm _ _).trans (update_of_ne hheadTail.symm _ _)
  refine ensures_freeChain_turn (htaken chain.head (by simp [Chain.members])) ?_
  rw [hformatted.head, if_pos (show descNext &&& descNext ≠ 0 by decide)]
  refine ensures_freeChain_turn htakenBody ?_
  have hnext : ((if request.writing then 0 else descWrite) ||| descNext) &&& descNext ≠ 0 := by
    cases request.writing <;> decide
  rw [hdescBody, hformatted.body, if_pos hnext]
  refine ensures_freeChain_turn htakenTail ?_
  have hlast : ¬descWrite &&& descNext ≠ 0 := by decide
  rw [hdescTail, hformatted.tail, if_neg hlast]
  rfl

/-! ## The state between two steps -/

/-- The requests that the device has not completed or that the driver has not
seen to be completed. -/
def pending (disk : Disk) (service : List ℕ) : List ℕ :=
  contents num disk.avail ++ (service ++ contents num disk.used)

/-- The state of the driver and the device, with the given requests in
flight. -/
structure Sound (disk : Disk) (service : List ℕ)
    (inFlight : Fin count → Option (Request × Chain)) : Prop where
  leased : Leased (fun proc => slots (inFlight proc)) (Taken disk)
  blank : ∀ i < num, disk.free i = true → disk.desc i = VQDesc.new
  formatted : ∀ proc request chain, inFlight proc = some (request, chain) →
    Formatted disk.desc request chain
  channel : ∀ proc request chain, inFlight proc = some (request, chain) →
    (disk.info chain.head).bufChannel = some request.data
  avail : Bounded num disk.avail
  used : Bounded num disk.used
  nodup : (pending disk service).Nodup
  pending_iff : ∀ head, head ∈ pending disk service ↔
    ∃ proc request chain, inFlight proc = some (request, chain) ∧
      chain.head = head ∧ (disk.info head).disk = true
  reported : ∀ head ∈ contents num disk.used, (disk.info head).status = 0
  counted : disk.avail.nwrite = (contents num disk.avail).length + service.length + disk.used.nwrite
  small : disk.avail.nwrite < indexLimit

section Sound

variable {disk : Disk} {service : List ℕ}
variable {inFlight : Fin count → Option (Request × Chain)}
variable {proc : Fin count} {request : Request} {chain : Chain} {head : ℕ}

theorem Sound.taken (hsound : Sound disk service inFlight)
    (hissue : inFlight proc = some (request, chain)) {i : ℕ}
    (hi : i ∈ chain.members) : Taken disk i := by
  refine (hsound.leased.taken_iff i).mpr ⟨proc, ?_⟩
  rwa [hissue]

theorem Sound.pending_lt (hsound : Sound disk service inFlight)
    (hhead : head ∈ pending disk service) : head < num := by
  obtain ⟨proc, request, chain, hissue, rfl, -⟩ := (hsound.pending_iff head).mp hhead
  exact (hsound.taken hissue List.mem_cons_self).1

theorem length_le_num {list : List ℕ} (hnodup : list.Nodup)
    (hlt : ∀ i ∈ list, i < num) : list.length ≤ num := by
  have hsub : list ⊆ List.range num := fun i hi => List.mem_range.mpr (hlt i hi)
  have hle := (hnodup.subperm hsub).length_le
  rwa [List.length_range] at hle

theorem room_of_length {ring : Buffer ℕ} (hlt : (contents num ring).length < num) :
    ring.nwrite ≠ ring.nread + num := by
  rw [length_contents] at hlt
  omega

/-- The device takes a request from the avail ring. -/
theorem Sound.fetch (hsound : Sound disk service inFlight)
    (hsome : disk.avail.nread ≠ disk.avail.nwrite) :
    Sound { disk with avail := pop disk.avail }
      (disk.avail.data (disk.avail.nread % num) :: service) inFlight := by
  have hcontents := contents_pop hsound.avail hsome
  have hperm : (pending { disk with avail := pop disk.avail }
      (disk.avail.data (disk.avail.nread % num) :: service)).Perm (pending disk service) := by
    rw [pending, pending, hcontents]
    exact List.perm_middle
  refine ⟨hsound.leased, hsound.blank, hsound.formatted, hsound.channel,
    hsound.avail.pop hsome, hsound.used, hperm.nodup_iff.mpr hsound.nodup, ?_,
    hsound.reported, ?_, hsound.small⟩
  · intro head
    rw [hperm.mem_iff]
    exact hsound.pending_iff head
  · have hcounted := hsound.counted
    rw [hcontents, List.length_cons] at hcounted
    change disk.avail.nwrite = (contents num (pop disk.avail)).length +
      (service.length + 1) + disk.used.nwrite
    omega

/-- The device completes a request. -/
theorem Sound.complete (hsound : Sound disk service inFlight) (hhead : head ∈ service) :
    Sound { disk with
        used := push num head disk.used
        info := update disk.info head { disk.info head with status := 0 } }
      (service.erase head) inFlight := by
  have herase := List.perm_cons_erase hhead
  have hlt : (contents num disk.used).length < num := by
    have hnodup : (head :: contents num disk.used).Nodup := by
      have hright := (List.nodup_append.mp hsound.nodup).2.1
      refine List.Nodup.cons ?_ (List.nodup_append.mp hright).2.1
      exact fun hmem => (List.nodup_append.mp hright).2.2 head hhead head hmem rfl
    refine length_le_num hnodup ?_
    intro i hi
    refine hsound.pending_lt (List.mem_append_right _ ?_)
    rcases List.mem_cons.mp hi with rfl | hi
    · exact List.mem_append_left _ hhead
    · exact List.mem_append_right _ hi
  have hroom := room_of_length hlt
  have hcontents := contents_push hsound.used hroom head
  have hdisk : ∀ i, (update disk.info head
      { disk.info head with status := 0 } i).disk = (disk.info i).disk := by
    intro i
    by_cases hi : i = head
    · rw [hi, update_self]
    · rw [update_of_ne hi]
  have hchannel : ∀ i, (update disk.info head { disk.info head with status := 0 } i).bufChannel =
        (disk.info i).bufChannel := by
    intro i
    by_cases hi : i = head
    · rw [hi, update_self]
    · rw [update_of_ne hi]
  have hperm : (pending { disk with
        used := push num head disk.used
        info := update disk.info head { disk.info head with status := 0 } }
      (service.erase head)).Perm (pending disk service) := by
    rw [pending, pending]
    refine List.Perm.append_left _ ?_
    dsimp only
    rw [hcontents, ← List.append_assoc]
    refine (List.perm_append_comm).trans ?_
    exact (herase.append_right (contents num disk.used)).symm
  refine ⟨hsound.leased, hsound.blank, hsound.formatted, ?_, hsound.avail,
    hsound.used.push hroom head, hperm.nodup_iff.mpr hsound.nodup, ?_, ?_, ?_, hsound.small⟩
  · intro proc request chain hissue
    rw [hchannel]
    exact hsound.channel proc request chain hissue
  · intro i
    rw [hperm.mem_iff, hdisk]
    exact hsound.pending_iff i
  · intro i hi
    dsimp only at hi ⊢
    rw [hcontents, List.mem_append, List.mem_singleton] at hi
    by_cases hsame : i = head
    · rw [hsame, update_self]
    · rw [update_of_ne hsame]
      exact hsound.reported i (hi.resolve_right hsame)
  · have hcounted := hsound.counted
    rw [herase.length_eq, List.length_cons] at hcounted
    change disk.avail.nwrite = (contents num disk.avail).length +
      (service.erase head).length + (disk.used.nwrite + 1)
    omega

/-- The driver sees that a request is completed. -/
theorem Sound.turn (hsound : Sound disk service inFlight)
    (hsome : disk.used.nread ≠ disk.used.nwrite)
    (hhead : head = disk.used.data (disk.used.nread % num)) :
    head ∈ contents num disk.used ∧ head < num ∧
      (disk.info head).status = 0 ∧ disk.used.nread + 1 ≠ indexLimit ∧
      (∃ data, (disk.info head).bufChannel = some data) ∧
      Sound { disk with
        info := update disk.info head { disk.info head with disk := false }
        used := pop disk.used } service inFlight := by
  have hcontents := contents_pop hsound.used hsome
  rw [← hhead] at hcontents
  have hmem : head ∈ contents num disk.used := by
    rw [hcontents]
    exact List.mem_cons_self
  have hpending : head ∈ pending disk service :=
    List.mem_append_right _ (List.mem_append_right _ hmem)
  obtain ⟨proc, request, chain, hissue, hchain, hflag⟩ := (hsound.pending_iff head).mp hpending
  have hperm : (pending disk service).Perm (head :: pending { disk with
        info := update disk.info head { disk.info head with disk := false }
        used := pop disk.used } service) := by
    rw [pending, pending, hcontents, ← List.append_assoc, ← List.append_assoc]
    exact List.perm_middle
  obtain ⟨hout, hnodup⟩ := List.nodup_cons.mp (hperm.nodup_iff.mp hsound.nodup)
  refine ⟨hmem, hsound.pending_lt hpending, hsound.reported head hmem, ?_,
    ⟨request.data, ?_⟩, hsound.leased, hsound.blank, hsound.formatted, ?_,
    hsound.avail, hsound.used.pop hsome, hnodup, ?_, ?_, hsound.counted, hsound.small⟩
  · have hle := hsound.used.le
    have hcounted := hsound.counted
    have hsmall := hsound.small
    omega
  · rw [← hchain]
    exact hsound.channel proc request chain hissue
  · intro other request chain hissue
    have hchannel := hsound.channel other request chain hissue
    dsimp only
    by_cases hsame : chain.head = head
    · rw [hsame, update_self]
      rwa [hsame] at hchannel
    · rwa [update_of_ne hsame]
  · intro i
    by_cases hi : i = head
    · constructor
      · intro hmem
        rw [hi] at hmem
        exact absurd hmem hout
      · rintro ⟨-, -, -, -, -, hflag⟩
        dsimp only at hflag
        rw [hi, update_self] at hflag
        cases hflag
    · dsimp only
      rw [update_of_ne hi, ← hsound.pending_iff i, hperm.mem_iff, List.mem_cons, or_iff_right hi]
  · intro i hi
    have hi' : i ∈ contents num disk.used := by
      rw [hcontents]
      exact List.mem_cons_of_mem _ hi
    have hne : i ≠ head := by
      rintro rfl
      exact hout (List.mem_append_right _ (List.mem_append_right _ hi))
    dsimp only
    rw [update_of_ne hne]
    exact hsound.reported i hi'

theorem update_members {Value : Type*} (cells : ℕ → Value) (chain : Chain) (value : Value) (i : ℕ) :
    update (update (update cells chain.head value) chain.body value)
      chain.tail value i = if i ∈ chain.members then value else cells i := by
  rw [update_apply, update_apply, update_apply, Chain.members]
  split_ifs <;> simp_all

theorem slots_update (inFlight : Fin count → Option (Request × Chain))
    (proc : Fin count) (value : Option (Request × Chain)) :
    (fun other => slots (update inFlight proc value other)) =
      update (fun other => slots (inFlight other)) proc (slots value) := by
  funext other
  exact apply_update (fun _ => slots) inFlight proc value other

theorem Formatted.congr {desc desc' : ℕ → VQDesc} (hformatted : Formatted desc request chain)
    (hdesc : ∀ i ∈ chain.members, desc' i = desc i) : Formatted desc' request chain :=
  ⟨(hdesc _ (by simp [Chain.members])).trans hformatted.head,
    (hdesc _ (by simp [Chain.members])).trans hformatted.body,
    (hdesc _ (by simp [Chain.members])).trans hformatted.tail⟩

/-- A request that the driver has seen to be completed is retired. -/
theorem Sound.retire (hsound : Sound disk service inFlight)
    (hissue : inFlight proc = some (request, chain)) (hflag : (disk.info chain.head).disk = false) :
    Sound { disk with
        desc := update (update (update disk.desc chain.head VQDesc.new)
          chain.body VQDesc.new) chain.tail VQDesc.new
        free := update (update (update disk.free chain.head true) chain.body true) chain.tail true
        info := update disk.info chain.head { disk.info chain.head with bufChannel := none } }
      service (update inFlight proc none) := by
  have hslots : slots (inFlight proc) = chain.members := by
    rw [hissue]
    rfl
  have hothers : ∀ other request' chain', update inFlight proc none other =
      some (request', chain') → inFlight other = some (request', chain') ∧
        ∀ i ∈ chain'.members, i ∉ chain.members := by
    intro other request' chain' hother
    have hne : other ≠ proc := by
      rintro rfl
      rw [update_self] at hother
      cases hother
    rw [update_of_ne hne] at hother
    refine ⟨hother, ?_⟩
    intro i hi hmem
    refine hsound.leased.disjoint other proc hne ?_ (hslots ▸ hmem)
    rwa [hother]
  have hheads : ∀ other request' chain', update inFlight proc none other =
      some (request', chain') → chain'.head ≠ chain.head := by
    intro other request' chain' hother hsame
    refine (hothers other request' chain' hother).2 chain'.head List.mem_cons_self ?_
    rw [hsame]
    exact List.mem_cons_self
  refine ⟨?_, ?_, ?_, ?_, hsound.avail, hsound.used, hsound.nodup, ?_, ?_,
    hsound.counted, hsound.small⟩
  · rw [slots_update]
    refine hsound.leased.revoke ?_
    intro i
    dsimp only [Taken]
    rw [update_members, hslots]
    split
    · next hmem => simp [hmem]
    · next hmem => simp [hmem]
  · intro i hi
    dsimp only
    rw [update_members, update_members]
    split
    · exact fun _ => rfl
    · exact hsound.blank i hi
  · intro other request' chain' hother
    obtain ⟨hbefore, hout⟩ := hothers other request' chain' hother
    refine (hsound.formatted other request' chain' hbefore).congr ?_
    intro i hi
    exact (update_members _ _ _ i).trans (if_neg (hout i hi))
  · intro other request' chain' hother
    dsimp only
    rw [update_of_ne (hheads other request' chain' hother)]
    exact hsound.channel other request' chain' (hothers _ _ _ hother).1
  · intro i
    change i ∈ pending disk service ↔ _
    rw [hsound.pending_iff i]
    constructor
    · rintro ⟨other, request', chain', hother, rfl, hdisk⟩
      have hne : other ≠ proc := by
        rintro rfl
        rw [hissue] at hother
        cases hother
        rw [hflag] at hdisk
        cases hdisk
      have hafter : update inFlight proc none other = some (request', chain') :=
        (update_of_ne hne _ _).trans hother
      refine ⟨other, request', chain', hafter, rfl, ?_⟩
      dsimp only
      rwa [update_of_ne (hheads other request' chain' hafter)]
    · rintro ⟨other, request', chain', hother, rfl, hdisk⟩
      dsimp only at hdisk
      rw [update_of_ne (hheads other request' chain' hother)] at hdisk
      exact ⟨other, request', chain', (hothers _ _ _ hother).1, rfl, hdisk⟩
  · intro i hi
    have hstatus := hsound.reported i hi
    dsimp only
    by_cases hsame : i = chain.head
    · rw [hsame, update_self]
      rwa [hsame] at hstatus
    · rwa [update_of_ne hsame]

theorem format_desc {i : ℕ} (hi : i ∉ chain.members) :
    (format request chain disk).desc i = disk.desc i := by
  simp only [Chain.members, List.mem_cons, List.not_mem_nil, or_false, not_or] at hi
  obtain ⟨hhead, hbody, htail⟩ := hi
  dsimp only [format]
  rw [update_of_ne htail, update_of_ne hbody, update_of_ne hhead]

theorem formatted_format (hnodup : chain.members.Nodup) :
    Formatted (format request chain disk).desc request chain := by
  obtain ⟨⟨hheadBody, hheadTail⟩, hbodyTail⟩ : (chain.head ≠ chain.body ∧ chain.head ≠ chain.tail) ∧
        chain.body ≠ chain.tail := by simpa [Chain.members] using hnodup
  refine ⟨?_, ?_, ?_⟩
  · dsimp only [format]
    rw [update_of_ne hheadTail, update_of_ne hheadBody, update_self]
  · dsimp only [format]
    rw [update_of_ne hbodyTail, update_self]
  · dsimp only [format]
    rw [update_self]

/-- A process issues a request. -/
theorem Sound.submit (request : Request)
    (hsound : Sound disk service inFlight) (hnone : inFlight proc = none) (hnodup : chain.members.Nodup)
    (hopen : ∀ i ∈ chain.members, i ∈ openSlots disk)
    (hsmall : disk.avail.nwrite + 1 ≠ indexLimit) {taken : Disk}
    (htaken : taken = format request chain { disk with
      free := update (update (update disk.free chain.head false)
        chain.body false) chain.tail false }) :
    Sound { taken with avail := push num chain.head taken.avail } service
      (update inFlight proc (some (request, chain))) := by
  subst htaken
  have hfree : ∀ i ∈ chain.members, ¬Taken disk i := by
    intro i hi htaken
    have hslot := (mem_openSlots.mp (hopen i hi)).2
    rw [htaken.2] at hslot
    cases hslot
  have hself : update inFlight proc (some (request, chain)) proc =
      some (request, chain) := update_self ..
  have hcases : ∀ other request' chain', update inFlight proc (some (request, chain)) other =
        some (request', chain') → request' = request ∧ chain' = chain ∨
      inFlight other = some (request', chain') := by
    intro other request' chain' hother
    by_cases hne : other = proc
    · rw [hne, update_self] at hother
      cases hother
      exact Or.inl ⟨rfl, rfl⟩
    · rw [update_of_ne hne] at hother
      exact Or.inr hother
  have hothers : ∀ other request' chain', inFlight other = some (request', chain') →
        ∀ i ∈ chain'.members, i ∉ chain.members := by
    intro other request' chain' hother i hi hmem
    exact hfree i hmem (hsound.taken hother hi)
  have hheads : ∀ other request' chain',
      inFlight other = some (request', chain') → chain'.head ≠ chain.head := by
    intro other request' chain' hother hsame
    refine hothers other request' chain' hother chain'.head List.mem_cons_self ?_
    rw [hsame]
    exact List.mem_cons_self
  have hnew : chain.head ∉ pending disk service := by
    intro hmem
    obtain ⟨other, request', chain', hother, hsame, -⟩ := (hsound.pending_iff chain.head).mp hmem
    exact hheads other request' chain' hother hsame
  have hlt : (contents num disk.avail).length < num := by
    have hnodup' := List.Nodup.cons (fun hmem => hnew (List.mem_append_left _ hmem))
      (List.nodup_append.mp hsound.nodup).1
    refine length_le_num hnodup' ?_
    intro i hi
    rcases List.mem_cons.mp hi with rfl | hi
    · exact (mem_openSlots.mp (hopen _ List.mem_cons_self)).1
    · exact hsound.pending_lt (List.mem_append_left _ hi)
  have hroom := room_of_length hlt
  have hcontents := contents_push hsound.avail hroom chain.head
  have hperm : (contents num (push num chain.head disk.avail) ++
      (service ++ contents num disk.used)).Perm (chain.head :: pending disk service) := by
    rw [hcontents, List.append_assoc]
    exact List.perm_middle
  refine ⟨?_, ?_, ?_, ?_, hsound.avail.push hroom chain.head, hsound.used,
    hperm.nodup_iff.mpr (List.Nodup.cons hnew hsound.nodup), ?_, ?_, ?_, ?_⟩
  · rw [slots_update]
    refine hsound.leased.grant (by rw [hnone]; rfl) hnodup hfree ?_
    intro i
    dsimp only [Taken, format]
    rw [update_members]
    split
    · next hmem =>
        have hi := (mem_openSlots.mp (hopen i hmem)).1
        simp [hi, slots, hmem]
    · next hmem => simp [slots, hmem]
  · intro i hi hopen'
    dsimp only [format] at hopen'
    rw [update_members] at hopen'
    split at hopen'
    · cases hopen'
    · next hmem =>
        refine (format_desc hmem).trans ?_
        exact hsound.blank i hi hopen'
  · intro other request' chain' hother
    rcases hcases other request' chain' hother with ⟨rfl, rfl⟩ | hbefore
    · exact formatted_format hnodup
    · refine (hsound.formatted other request' chain' hbefore).congr ?_
      intro i hi
      exact format_desc (hothers other request' chain' hbefore i hi)
  · intro other request' chain' hother
    dsimp only [format]
    rcases hcases other request' chain' hother with ⟨rfl, rfl⟩ | hbefore
    · rw [update_self]
    · rw [update_of_ne (hheads other request' chain' hbefore)]
      exact hsound.channel other request' chain' hbefore
  · intro i
    change i ∈ contents num (push num chain.head disk.avail) ++
      (service ++ contents num disk.used) ↔ _
    rw [hperm.mem_iff, List.mem_cons]
    dsimp only [format]
    constructor
    · rintro (rfl | hmem)
      · exact ⟨proc, request, chain, hself, rfl, by rw [update_self]⟩
      · obtain ⟨other, request', chain', hother, rfl, hdisk⟩ := (hsound.pending_iff i).mp hmem
        have hne : other ≠ proc := by
          rintro rfl
          rw [hnone] at hother
          cases hother
        refine ⟨other, request', chain', (update_of_ne hne _ _).trans hother,
          rfl, ?_⟩
        rwa [update_of_ne (hheads other request' chain' hother)]
    · rintro ⟨other, request', chain', hother, rfl, hdisk⟩
      rcases hcases other request' chain' hother with ⟨-, rfl⟩ | hbefore
      · exact Or.inl rfl
      · rw [update_of_ne (hheads other request' chain' hbefore)] at hdisk
        exact Or.inr ((hsound.pending_iff _).mpr ⟨other, request', chain', hbefore, rfl, hdisk⟩)
  · intro i hi
    have hne : i ≠ chain.head := by
      rintro rfl
      exact hnew (List.mem_append_right _ (List.mem_append_right _ hi))
    dsimp only [format]
    rw [update_of_ne hne]
    exact hsound.reported i hi
  · have hcounted := hsound.counted
    change disk.avail.nwrite + 1 = (contents num (push num chain.head disk.avail)).length +
        service.length + disk.used.nwrite
    rw [hcontents, List.length_append, List.length_singleton]
    omega
  · have hbefore := hsound.small
    change disk.avail.nwrite + 1 < indexLimit
    omega

end Sound

end RxOs.DescriptorLease
