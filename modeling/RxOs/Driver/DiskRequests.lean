import RxOs.Driver.DescriptorLease

/-!
# Requests to the virtio disk

Runs of the processes, the device and the interrupt handler.  The roll-back of
`alloc3_desc` frees the wrong descriptors: it leaves things as they were only if
the descriptors that were free are the first ones.
-/

namespace RxOs.DiskRequests

open Function Exec Lease RingBuffer Transition VirtioDisk DescriptorLease

variable {count : ℕ}

/-- Three descriptors are free, or the free ones are the first ones. -/
def Roomy (disk : Disk) : Prop :=
  3 ≤ (openSlots disk).card ∨ ∀ i < num, disk.free i = true ↔ i < (openSlots disk).card

def Seeks : Thread → Prop
  | .seeking _ false => True
  | _ => False

/-- A process that is about to allocate descriptors finds room for it. -/
def Admitted (machine : Machine count) : Action count → Prop
  | .proceed proc => Seeks (machine.threads proc) → Roomy machine.disk
  | _ => True

/-- The descriptors in use are the disjoint union of the chains of the requests
in flight, and no descriptor was freed that is not in use. -/
structure Owned (machine : Machine count) : Prop where
  leased : Leased (fun proc => slots (issues machine.threads proc)) (Taken machine.disk)
  panic : machine.panic ≠ some .descIndex

/-- What a step may do: an allocation that fails, so that the process sleeps,
leaves the descriptors as they were, and the flag of a request is cleared only
when the device has reported the request. -/
structure Careful (machine : Machine count) (action : Action count)
    (next : Machine count) : Prop where
  failing : ∀ proc request, action = .proceed proc → machine.threads proc = .seeking request false →
    next.threads proc = .seeking request true →
      next.disk.free = machine.disk.free ∧ next.disk.desc = machine.disk.desc
  cleared : ∀ head, (machine.disk.info head).disk = true →
    (next.disk.info head).disk = false → head ∈ contents num machine.disk.used

/-- The state between two steps; the only panic is that of the overflow check
for the index of the avail ring. -/
structure Invariant (machine : Machine count) : Prop where
  sound : Sound machine.disk machine.service (issues machine.threads)
  panic : machine.panic = none ∨ machine.panic = some .overflow

theorem Invariant.owned {machine : Machine count}
    (hinvariant : Invariant machine) : Owned machine where
  leased := hinvariant.sound.leased
  panic := by
    rcases hinvariant.panic with hnone | hover
    · rw [hnone]
      nofun
    · rw [hover]
      nofun

theorem invariant_boot : Invariant (boot : Machine count) where
  sound :=
    { leased := ⟨fun _ => List.nodup_nil, fun _ _ _ => List.disjoint_nil_left _,
        fun _ => ⟨fun htaken => absurd htaken.2 nofun, nofun⟩⟩
      blank := fun _ _ _ => rfl
      formatted := nofun
      channel := nofun
      avail := ⟨le_refl 0, Nat.zero_le _⟩
      used := ⟨le_refl 0, Nat.zero_le _⟩
      nodup := List.nodup_nil
      pending_iff := fun _ => ⟨nofun, nofun⟩
      reported := nofun
      counted := rfl
      small := (by decide : 0 < indexLimit) }
  panic := Or.inl rfl

section Steps

variable {machine next : Machine count} {action : Action count}
variable {proc : Fin count} {request : Request} {chain : Chain}

/-- What code with the mutex ensures, its execution leads to. -/
theorem exec_of_ensures {program : Driver count PUnit} {returned : PUnit → Machine count → Prop}
    {stopped : Panic → Machine count → Prop} {post : Machine count → Prop}
    (hensures : Ensures program machine returned stopped)
    (hreturned : ∀ value next, returned value next → post next)
    (hstopped : ∀ cause next, stopped cause next → post { machine with panic := some cause }) :
    post (exec program machine) := by
  rw [exec]
  cases hrun : program machine with
  | ok value next => exact hreturned value next (hensures.eq_ok hrun)
  | error cause next => exact hstopped cause next (hensures.eq_error hrun)

def FlagsKept (disk disk' : Disk) : Prop :=
  ∀ head, (disk.info head).disk = true → (disk'.info head).disk = true

theorem ensures_await (hsound : Sound machine.disk machine.service
      (update (issues machine.threads) proc (some (request, chain)))) :
    Ensures (await proc request chain) machine
      (fun _ next => Sound next.disk next.service (issues next.threads) ∧
        next.panic = machine.panic ∧ FlagsKept machine.disk next.disk ∧
        next.threads proc ≠ .seeking request true) fun _ _ => False := by
  have hself : update (issues machine.threads) proc (some (request, chain))
      proc = some (request, chain) := update_self ..
  have hchannel := hsound.channel proc request chain hself
  have hnodup : chain.members.Nodup := by
    have hslots := hsound.leased.nodup proc
    rwa [hself] at hslots
  rw [await, ensures_bind, ensures_get]
  dsimp only
  rw [ensures_ite]
  constructor
  · intro hflag
    refine ⟨?_, rfl, fun _ hflag => hflag, ?_⟩
    · rw [issues_update]
      exact hsound
    · dsimp only
      rw [update_self]
      nofun
  · intro hflag
    rw [ensures_bind, ensures_modifyDisk, hchannel, if_neg nofun, if_neg (not_not_intro rfl)]
    refine Ensures.bind (ensures_freeChain hnodup (fun i hi => hsound.taken hself hi)
      (hsound.formatted proc request chain hself)) ?_
    · rintro _ middle rfl
      refine ⟨?_, rfl, ?_, ?_⟩
      · have hretired := hsound.retire hself (Bool.eq_false_iff.mpr hflag)
        rw [update_idem] at hretired
        change Sound _ _ (issues (update (wakeUp .free (wakeUp .free
          (wakeUp .free machine.threads))) proc .idle))
        rw [issues_update, issues_wakeUp, issues_wakeUp, issues_wakeUp]
        exact hretired
      · intro head hdisk
        change (update machine.disk.info chain.head _ head).disk = true
        by_cases hsame : head = chain.head
        · rw [hsame] at hdisk
          exact absurd hdisk hflag
        · rwa [update_of_ne hsame]
      · dsimp only
        rw [update_self]
        nofun

/-- The state after an allocation that failed. -/
theorem failed_disk (hcard : (openSlots machine.disk).card < 3) (hroomy : Roomy machine.disk)
    (hsound : Sound machine.disk machine.service (issues machine.threads)) :
    (giveFirst (openSlots machine.disk).card (takeAll machine)).disk = machine.disk := by
  have hfirst := hroomy.resolve_left hcard.not_ge
  have hnum : num = 8 := rfl
  have hfree : (fun i => decide (i < (openSlots machine.disk).card) ||
      if i < num then false else machine.disk.free i) = machine.disk.free := by
    funext i
    by_cases hi : i < num
    · rw [if_pos hi, Bool.or_false, Bool.eq_iff_iff, decide_eq_true_iff]
      exact (hfirst i hi).symm
    · rw [if_neg hi, decide_eq_false (by omega), Bool.false_or]
  have hdesc : (fun i => if i < (openSlots machine.disk).card then VQDesc.new
      else machine.disk.desc i) = machine.disk.desc := by
    funext i
    split
    · next hi =>
        have hlt : i < num := by omega
        exact (hsound.blank i hlt ((hfirst i hlt).mpr hi)).symm
    · rfl
  dsimp only [giveFirst, takeAll]
  rw [hfree, hdesc]

theorem issues_seeking {asleep : Bool} (hthread : machine.threads proc = .seeking request asleep) :
    issues machine.threads proc = none := by
  rw [issues, hthread]
  rfl

/-- The requests in flight after an allocation that failed. -/
theorem failed_issues (taken : ℕ) (hthread : machine.threads proc = .seeking request false) :
    issues (update (giveFirst taken (takeAll machine)).threads proc
      (.seeking request true)) = issues machine.threads := by
  have hgiven : issues (giveFirst taken (takeAll machine)).threads = issues machine.threads := by
    dsimp only [giveFirst, takeAll]
    split
    · rfl
    · exact issues_wakeUp _ _
  rw [issues_update, hgiven]
  exact update_eq_self_iff.mpr (issues_seeking hthread).symm

theorem ensures_attempt (hthread : machine.threads proc = .seeking request false)
    (hroomy : Roomy machine.disk)
    (hsound : Sound machine.disk machine.service (issues machine.threads)) :
    Ensures (attempt proc request) machine
      (fun _ next => Sound next.disk next.service (issues next.threads) ∧
        next.panic = machine.panic ∧ FlagsKept machine.disk next.disk ∧
        (next.threads proc = .seeking request true →
          next.disk = machine.disk)) fun cause _ => cause = .overflow := by
  have hissue := issues_seeking hthread
  rw [attempt]
  refine Ensures.bind ((ensures_alloc3Desc machine).imp (fun _ _ => id) fun _ _ => False.elim) ?_
  rintro _ _ (⟨chain, rfl, hnodup, hopen, rfl⟩ | ⟨hcard, rfl, rfl⟩)
  · rw [ensures_bind, ensures_modifyDisk, ensures_bind, ensures_get, ensures_ite]
    refine ⟨fun _ => rfl, ?_⟩
    intro hsmall
    rw [ensures_bind, ensures_modifyDisk]
    have hsubmit := hsound.submit request hissue hnodup hopen hsmall rfl
    refine (ensures_await hsubmit).imp ?_ fun _ _ => False.elim
    rintro _ next ⟨hnext, hpanic, hflags, hawake⟩
    refine ⟨hnext, hpanic, ?_, fun hsleep => absurd hsleep hawake⟩
    intro head hflag
    refine hflags head ?_
    change (update machine.disk.info chain.head _ head).disk = true
    by_cases hsame : head = chain.head
    · rw [hsame, update_self]
    · rwa [update_of_ne hsame]
  · have hdisk := failed_disk hcard hroomy hsound
    refine ⟨?_, rfl, ?_, fun _ => hdisk⟩
    · dsimp only
      rw [hdisk, failed_issues _ hthread]
      exact hsound
    · dsimp only
      rw [hdisk]
      exact fun _ => id

/-- An allocation that fails without room breaks the ownership. -/
theorem roomy_of_attempt (hthread : machine.threads proc = .seeking request false)
    (hsound : Sound machine.disk machine.service (issues machine.threads))
    (howned : Owned (exec (attempt proc request) machine)) : Roomy machine.disk := by
  by_contra hroomy
  have hcard : (openSlots machine.disk).card < 3 := not_le.mp fun hle => hroomy (Or.inl hle)
  have hensures : Ensures (attempt proc request) machine
      (fun _ next => issues next.threads = issues machine.threads ∧ ∀ i < num, next.disk.free i =
          decide (i < (openSlots machine.disk).card)) fun _ _ => False := by
    rw [attempt]
    refine Ensures.bind (ensures_alloc3Desc machine) ?_
    rintro _ _ (⟨chain, rfl, hnodup, hopen, -⟩ | ⟨-, rfl, rfl⟩)
    · have hsub : chain.members.toFinset ⊆ openSlots machine.disk :=
        fun i hi => hopen i (List.mem_toFinset.mp hi)
      have hle := Finset.card_le_card hsub
      rw [List.toFinset_card_of_nodup hnodup] at hle
      exact absurd hle hcard.not_ge
    · refine ⟨failed_issues _ hthread, ?_⟩
      intro i hi
      dsimp only [giveFirst, takeAll]
      rw [if_pos hi, Bool.or_false]
  obtain ⟨_, next, hrun, hissues, hfree⟩ := hensures.exists_ok
  have hleased := howned.leased
  rw [exec, hrun] at hleased
  dsimp only at hleased
  rw [hissues] at hleased
  refine hroomy (Or.inr ?_)
  intro i hi
  have htaken : Taken machine.disk i ↔ Taken next.disk i :=
    (hsound.leased.taken_iff i).trans (hleased.taken_iff i).symm
  rw [Taken, Taken, hfree i hi, and_iff_right hi, and_iff_right hi,
    decide_eq_false_iff_not] at htaken
  rw [← not_iff_not, ← htaken, Bool.not_eq_true]

theorem ensures_turn (hsome : machine.disk.used.nread ≠ machine.disk.used.nwrite)
    (hsound : Sound machine.disk machine.service (issues machine.threads)) :
    Ensures turn machine (fun _ next => Sound next.disk next.service (issues next.threads) ∧
        next.panic = machine.panic ∧ ∀ head, (machine.disk.info head).disk = true →
          (next.disk.info head).disk = false → head ∈ contents num machine.disk.used)
      fun _ _ => False := by
  obtain ⟨hmem, hlt, hstatus, hindex, ⟨data, hchannel⟩, hnext⟩ := hsound.turn hsome rfl
  rw [turn, ensures_bind, ensures_get]
  dsimp only
  rw [if_neg hlt.not_ge, if_neg (not_not_intro hstatus), hchannel]
  dsimp only
  rw [ensures_bind, ensures_modify, if_neg hindex, ensures_modifyDisk]
  refine ⟨?_, rfl, ?_⟩
  · dsimp only
    rw [issues_wakeUp]
    exact hnext
  · intro head hset hclear
    dsimp only at hclear
    by_contra hout
    have hne : head ≠ machine.disk.used.data (machine.disk.used.nread % num) := by
      intro hsame
      rw [hsame] at hout
      exact hout hmem
    rw [update_of_ne hne, hset] at hclear
    cases hclear

/-- What every step does: the state stays sound and the step is careful. -/
def Stepped (machine : Machine count) (action : Action count) (next : Machine count) : Prop :=
  Invariant next ∧ Careful machine action next

theorem stepped_overflow (hinvariant : Invariant machine) :
    Stepped machine action { machine with panic := some .overflow } :=
  ⟨⟨hinvariant.sound, Or.inr rfl⟩, ⟨fun _ _ _ _ _ => ⟨rfl, rfl⟩,
      fun _ hset hclear => absurd (hset.symm.trans hclear) nofun⟩⟩

/-- A step outside of `rw` that clears no flag. -/
theorem stepped_of_other (hnext : Invariant next) (haction : ∀ proc, action ≠ .proceed proc)
    (hflags : FlagsKept machine.disk next.disk) : Stepped machine action next := by
  refine ⟨hnext, fun proc _ hsame => absurd hsame (haction proc), ?_⟩
  intro head hset hclear
  rw [hflags head hset] at hclear
  cases hclear

theorem Invariant.proceed (hinvariant : Invariant machine)
    (hadmitted : Admitted machine (.proceed proc)) (hstep : proceed machine proc = some next) :
    Stepped machine (.proceed proc) next := by
  rw [VirtioDisk.proceed] at hstep
  split at hstep
  · next request hthread =>
      have hroomy : Roomy machine.disk := by
        refine hadmitted ?_
        rw [hthread]
        trivial
      cases hstep
      refine exec_of_ensures (ensures_attempt hthread hroomy hinvariant.sound)
        ?_ fun cause _ hcause => hcause ▸ stepped_overflow hinvariant
      rintro _ next ⟨hsound, hpanic, hflags, hfailed⟩
      refine ⟨⟨hsound, hpanic ▸ hinvariant.panic⟩, ?_, ?_⟩
      · intro other request' hother hbefore hafter
        cases hother
        obtain ⟨rfl, -⟩ := Thread.seeking.inj (hthread.symm.trans hbefore)
        rw [hfailed hafter]
        exact ⟨rfl, rfl⟩
      · intro head hset hclear
        rw [hflags head hset] at hclear
        cases hclear
  · next request chain hthread =>
      cases hstep
      have hissue : issues machine.threads proc = some (request, chain) := by
        rw [issues, hthread]
        rfl
      have hsound : Sound machine.disk machine.service
          (update (issues machine.threads) proc (some (request, chain))) := by
        rw [update_eq_self_iff.mpr hissue.symm]
        exact hinvariant.sound
      refine exec_of_ensures (ensures_await hsound) ?_ fun _ _ => False.elim
      rintro _ next ⟨hsound, hpanic, hflags, -⟩
      refine ⟨⟨hsound, hpanic ▸ hinvariant.panic⟩, ?_, ?_⟩
      · intro other request' hother hbefore
        cases hother
        rw [hthread] at hbefore
        cases hbefore
      · intro head hset hclear
        rw [hflags head hset] at hclear
        cases hclear
  · cases hstep

theorem Invariant.step (hinvariant : Invariant machine) (hadmitted : Admitted machine action)
    (hstep : step machine action = some next) : Stepped machine action next := by
  obtain ⟨hsound, hpanic⟩ := hinvariant
  rw [VirtioDisk.step.eq_def] at hstep
  split at hstep
  · cases hstep
  cases action with
  | call proc request =>
    dsimp only at hstep
    split at hstep
    · next hidle =>
        cases hstep
        refine stepped_of_other ⟨?_, hpanic⟩ (by simp) fun _ => id
        have hissue : issues machine.threads proc = none := by
          rw [issues, hidle]
          rfl
        dsimp only
        rw [issues_update, update_eq_self_iff.mpr]
        · exact hsound
        · exact hissue.symm
    · cases hstep
  | proceed proc =>
    dsimp only at hstep
    split at hstep
    · cases hstep
    · exact Invariant.proceed ⟨hsound, hpanic⟩ hadmitted hstep
  | kill proc =>
    cases hstep
    refine stepped_of_other ⟨?_, hpanic⟩ (by simp) fun _ => id
    dsimp only
    rw [issues_update, issue_awaken, update_eq_self_iff.mpr]
    · exact hsound
    · rfl
  | fetch =>
    dsimp only at hstep
    split at hstep
    · cases hstep
    · next hsome =>
        cases hstep
        exact stepped_of_other ⟨hsound.fetch hsome, hpanic⟩ (by simp) fun _ => id
  | complete head =>
    dsimp only at hstep
    split at hstep
    · next hhead =>
        cases hstep
        refine stepped_of_other ⟨hsound.complete hhead, hpanic⟩ (by simp) ?_
        intro other hflag
        dsimp only
        by_cases hsame : other = head
        · rw [hsame, update_self]
          rwa [hsame] at hflag
        · rwa [update_of_ne hsame]
    · cases hstep
  | enter =>
    dsimp only at hstep
    split at hstep
    · cases hstep
    · cases hstep
      exact stepped_of_other ⟨hsound, hpanic⟩ (by simp) fun _ => id
  | turn =>
    dsimp only at hstep
    split at hstep
    · next hturn =>
        cases hstep
        refine exec_of_ensures (ensures_turn hturn.2 hsound) ?_ fun _ _ => False.elim
        rintro _ next ⟨hnext, hkept, hcleared⟩
        exact ⟨⟨hnext, hkept ▸ hpanic⟩, by simp, hcleared⟩
    · cases hstep
  | leave =>
    dsimp only at hstep
    split at hstep
    · cases hstep
      exact stepped_of_other ⟨hsound, hpanic⟩ (by simp) fun _ => id
    · cases hstep

/-- A step that allocates descriptors without room. -/
theorem admitted_of_owned (hinvariant : Invariant machine)
    (hstep : step machine action = some next) (howned : Owned next) : Admitted machine action := by
  cases action with
  | proceed proc =>
    intro hseeks
    cases hthread : machine.threads proc with
    | seeking request asleep =>
      cases asleep with
      | false =>
        rw [VirtioDisk.step] at hstep
        split at hstep
        · cases hstep
        split at hstep
        · cases hstep
        rw [VirtioDisk.proceed, hthread] at hstep
        cases hstep
        exact roomy_of_attempt hthread hinvariant.sound howned
      | true =>
        rw [hthread] at hseeks
        exact hseeks.elim
    | _ =>
      rw [hthread] at hseeks
      exact hseeks.elim
  | _ => trivial

end Steps

/-- In a run the descriptors in use are always the disjoint union of the chains
of the requests in flight, and every step is careful, exactly when every process
that allocates descriptors finds room. -/
theorem run_owned_iff {last : Machine count} {record : List (Machine count × Action count)}
    (hrun : Run step boot record last) :
    (Owned last ∧ ∀ entry ∈ record, Owned entry.1 ∧ ∀ next, step entry.1 entry.2 = some next →
        Careful entry.1 entry.2 next) ↔ ∀ entry ∈ record, Admitted entry.1 entry.2 := by
  have hkeep : ∀ (machine : Machine count) (action : Action count) next,
      Invariant machine → Admitted machine action →
      step machine action = some next → Invariant next := fun _ _ _ hinvariant hadmitted hstep =>
      (hinvariant.step hadmitted hstep).1
  have hiff := hrun.holds_iff hkeep (fun _ _ _ hinvariant _ hstep =>
    ⟨admitted_of_owned hinvariant hstep, fun hadmitted =>
      (hinvariant.step hadmitted hstep).1.owned⟩) invariant_boot invariant_boot.owned
  constructor
  · rintro ⟨hlast, hstates⟩
    exact hiff.mp ⟨hlast, fun entry hentry => (hstates entry hentry).1⟩
  · intro hadmitted
    obtain ⟨hlast, howned⟩ := hiff.mpr hadmitted
    obtain ⟨-, hinvariant⟩ := hrun.invariant hkeep invariant_boot hadmitted
    refine ⟨hlast, fun entry hentry => ⟨howned entry hentry, ?_⟩⟩
    intro next hstep
    exact ((hinvariant entry hentry).step (hadmitted entry hentry) hstep).2

instance (thread : Thread) : Decidable (Seeks thread) := by
  unfold Seeks
  split <;> infer_instance

instance (disk : Disk) : Decidable (Roomy disk) :=
  inferInstanceAs (Decidable (_ ∨ _))

instance (machine : Machine count) (action : Action count) :
    Decidable (Admitted machine action) := by
  unfold Admitted
  split <;> infer_instance

/-- Two requests are in flight at a time; the device completes the second one
first. -/
def twoRequests : List (Action 2) :=
  [.call 0 ⟨4096, 2, true⟩, .proceed 0, .call 1 ⟨8192, 33, false⟩, .proceed 1,
    .fetch, .fetch, .complete 3, .complete 0, .enter, .turn, .turn, .leave, .proceed 1, .proceed 0]

theorem run_owned_iff_two : ∃ record last,
    Run step boot record last ∧ record.map Prod.snd = twoRequests ∧
      (Owned last ∧ ∀ entry ∈ record, Owned entry.1 ∧ ∀ next, step entry.1 entry.2 = some next →
          Careful entry.1 entry.2 next) ∧ (∀ proc, last.threads proc = .idle) ∧
      (openSlots last.disk).card = num := by
  have hsome : ((twoRequests.foldlM (guarded Admitted step) boot).any fun last =>
      (∀ proc, last.threads proc = .idle) ∧ (openSlots last.disk).card = num) = true := by
    decide +kernel
  obtain ⟨record, last, hrun, hactions, hadmitted, hend⟩ := Run.of_any_admitted hsome
  exact ⟨record, last, hrun, hactions, (run_owned_iff hrun).mpr hadmitted, hend⟩

def thirdRequest : List (Action 3) :=
  [.call 0 ⟨4096, 2, true⟩, .proceed 0, .call 1 ⟨8192, 33, false⟩, .proceed 1,
    .call 2 ⟨12288, 40, false⟩, .proceed 2]

def firstDone : List (Action 3) :=
  [.fetch, .complete 0, .enter, .turn, .leave, .proceed 0]

/-- The allocation for the third request fails and frees descriptors of the
first one, and when that is done the driver panics. -/
theorem not_run_owned : ∃ record last,
    Run step boot record last ∧ record.map Prod.snd = thirdRequest ∧ ¬Owned last ∧
      ∃ rest final, Run step last rest final ∧
        rest.map Prod.snd = firstDone ∧ final.panic = some .descIndex := by
  have hsome : ((thirdRequest.foldlM step boot).any fun last =>
      last.threads 0 = .issued ⟨4096, 2, true⟩ ⟨0, 1, 2⟩ true ∧ last.disk.free 0 = true ∧
        (firstDone.foldlM step last).any fun final => final.panic = some .descIndex) = true := by
    decide +kernel
  obtain ⟨record, last, hrun, hactions, hissued, hfree, hlater⟩ := Run.of_any hsome
  refine ⟨record, last, hrun, hactions, ?_, Run.of_any hlater⟩
  intro howned
  have hmem : 0 ∈ slots (issues last.threads 0) := by
    rw [issues, hissued]
    exact List.mem_cons_self
  have htaken := (howned.leased.taken_iff 0).mpr ⟨0, hmem⟩
  rw [htaken.2] at hfree
  cases hfree

end RxOs.DiskRequests
