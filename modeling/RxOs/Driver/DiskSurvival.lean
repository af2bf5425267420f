import RxOs.Driver.DiskCounters

/-!
# The disk driver in the long run

Runs of any length of the processes, the device and the interrupt handler.  The
entries of the rings are never overwritten and never taken twice, but the index
of the avail ring is incremented with an overflow check: the request after the
last one that it can count stops the kernel.
-/

namespace RxOs.DiskSurvival

open Function Exec RingBuffer Transition VirtioDisk DescriptorLease DiskCounters
open DiskRequests (Seeks exec_of_ensures twoRequests)

variable {count : ℕ}

section Steps

variable {machine next : Machine count} {proc : Fin count}

def reported : Machine count × Action count → List ℕ
  | (_, .complete head) => [head]
  | _ => []

/-- What `intr` takes from the used ring in a step. -/
def consumed : Machine count × Action count → List ℕ
  | (machine, .turn) =>
    if (exec turn machine).panic = none then
      [machine.disk.used.data (machine.disk.used.nread % num)]
    else []
  | _ => []

/-- A process that is about to publish a request finds the index of the avail
ring below its last value. -/
def Admitted (machine : Machine count) : Action count → Prop
  | .proceed proc => Seeks (machine.threads proc) → 3 ≤ (openSlots machine.disk).card →
        machine.disk.avail.nwrite + 1 < indexLimit
  | _ => True

/-- What every step does, admitted or not. -/
structure Stepped (machine : Machine count) (action : Action count)
    (next : Machine count) : Prop where
  kept : Kept next.disk next.service (issues next.threads)
  queue : contents num machine.disk.used ++ reported (machine, action) =
    consumed (machine, action) ++ contents num next.disk.used
  vacant : next.disk.avail.nwrite ≠ machine.disk.avail.nwrite → Vacant machine.disk.avail
  panic : next.panic = some .overflow ↔ ¬Admitted machine action

/-- A step that leaves the used ring alone and publishes nothing. -/
theorem stepped_of_eq {action : Action count}
    (hkept : Kept next.disk next.service (issues next.threads))
    (hadmitted : Admitted machine action) (hreported : reported (machine, action) = [])
    (hconsumed : consumed (machine, action) = []) (hused : next.disk.used = machine.disk.used)
    (havail : next.disk.avail.nwrite = machine.disk.avail.nwrite)
    (hpanic : next.panic ≠ some .overflow) : Stepped machine action next where
  kept := hkept
  queue := by rw [hreported, hconsumed, hused, List.append_nil, List.nil_append]
  vacant := fun hpublished => absurd havail hpublished
  panic := ⟨fun hover => absurd hover hpanic, fun hrefused => absurd hadmitted hrefused⟩

theorem some_ne_overflow {cause : Panic} (hcause : cause ≠ .overflow) :
    some cause ≠ some Panic.overflow :=
  fun hsame => hcause (Option.some.inj hsame)

theorem stepped_proceed (hrunning : machine.panic = none)
    (hkept : Kept machine.disk machine.service (issues machine.threads))
    (hstep : proceed machine proc = some next) : Stepped machine (.proceed proc) next := by
  have hnone : machine.panic ≠ some .overflow := by
    rw [hrunning]
    nofun
  have hsmall := hkept.small
  rw [VirtioDisk.proceed] at hstep
  split at hstep
  · next request hthread =>
      cases hstep
      have hseeks : Seeks (machine.threads proc) := by
        rw [hthread]
        trivial
      apply exec_of_ensures (ensures_attempt_kept hthread hkept)
      · rintro _ next ⟨hnext, hpanic, hused, hvacant, hfits⟩
        refine ⟨hnext, ?_, ?_, ?_⟩
        · rw [hused]
          exact List.append_nil _
        · intro hpublished
          apply hvacant
          intro hsame
          rw [hsame] at hpublished
          exact hpublished rfl
        · rw [hpanic]
          refine ⟨fun hover => absurd hover hnone, fun hrefused => ?_⟩
          refine absurd ?_ hrefused
          intro _ hthree
          have hlimit : machine.disk.avail.nwrite + 1 ≠ indexLimit :=
            fun hlimit => hfits ⟨hthree, hlimit⟩
          omega
      · rintro cause _ ⟨rfl, hthree, hlimit⟩
        refine ⟨hkept, List.append_nil _, fun hpublished => absurd rfl hpublished,
          ⟨fun _ hadmitted => ?_, fun _ => rfl⟩⟩
        have hbelow := hadmitted hseeks hthree
        omega
  · next request chain hthread =>
      cases hstep
      have hissue : issues machine.threads proc = some (request, chain) := by
        rw [issues, hthread]
        rfl
      have hadmitted : Admitted machine (.proceed proc) := by
        intro hseeks
        rw [hthread] at hseeks
        exact hseeks.elim
      apply exec_of_ensures (ensures_await_kept hissue hkept)
      · rintro _ next ⟨hnext, hpanic, havail, hused⟩
        exact stepped_of_eq hnext hadmitted rfl rfl hused (by rw [havail]) (hpanic ▸ hnone)
      · intro cause _ hcause
        exact stepped_of_eq hkept hadmitted rfl rfl rfl rfl (some_ne_overflow hcause)
  · cases hstep

theorem stepped_turn (hrunning : machine.panic = none)
    (hkept : Kept machine.disk machine.service (issues machine.threads))
    (hsome : machine.disk.used.nread ≠ machine.disk.used.nwrite) :
    Stepped machine .turn (exec turn machine) := by
  have hnone : machine.panic ≠ some .overflow := by
    rw [hrunning]
    nofun
  have hensures := ensures_turn_kept hsome hkept
  cases hrun : turn machine with
  | ok value next =>
    obtain ⟨hnext, hpanic, havail, hused⟩ := hensures.eq_ok hrun
    have hexec : exec turn machine = next := by rw [exec, hrun]
    rw [hexec]
    refine ⟨hnext, ?_, ?_, ?_⟩
    · rw [hused, consumed, hexec, hpanic, if_pos hrunning]
      exact (List.append_nil _).trans (contents_pop hkept.bounded_used hsome)
    · rw [havail]
      exact fun hpublished => absurd rfl hpublished
    · rw [hpanic]
      exact ⟨fun hover => absurd hover hnone, fun hrefused => absurd trivial hrefused⟩
  | error cause next =>
    have hcause := hensures.eq_error hrun
    have hexec : exec turn machine = { machine with panic := some cause } := by rw [exec, hrun]
    have hconsumed : consumed (machine, Action.turn) = [] := by
      rw [consumed, hexec]
      rfl
    rw [hexec]
    exact stepped_of_eq hkept trivial rfl hconsumed rfl rfl (some_ne_overflow hcause)

theorem stepped_of_step {action : Action count}
    (hkept : Kept machine.disk machine.service (issues machine.threads))
    (hstep : step machine action = some next) : Stepped machine action next := by
  rw [VirtioDisk.step.eq_def] at hstep
  split at hstep
  · cases hstep
  next hnotNone =>
  have hrunning := not_not.mp hnotNone
  have hnone : machine.panic ≠ some .overflow := by
    rw [hrunning]
    simp
  cases action with
  | call proc request =>
    dsimp only at hstep
    split at hstep
    · next hidle =>
        cases hstep
        refine stepped_of_eq ?_ trivial rfl rfl rfl rfl hnone
        have hissue : issues machine.threads proc = none := by
          rw [issues, hidle]
          rfl
        dsimp only
        rw [issues_update, update_eq_self_iff.mpr]
        · exact hkept
        · exact hissue.symm
    · cases hstep
  | proceed proc =>
    dsimp only at hstep
    split at hstep
    · cases hstep
    · exact stepped_proceed hrunning hkept hstep
  | kill proc =>
    cases hstep
    refine stepped_of_eq ?_ trivial rfl rfl rfl rfl hnone
    dsimp only
    rw [issues_update, issue_awaken, update_eq_self_iff.mpr]
    · exact hkept
    · rfl
  | fetch =>
    dsimp only at hstep
    split at hstep
    · cases hstep
    · next hsome =>
        cases hstep
        exact stepped_of_eq (hkept.fetch hsome _) trivial rfl rfl rfl rfl hnone
  | complete head =>
    dsimp only at hstep
    split at hstep
    · next hhead =>
        cases hstep
        obtain ⟨hroom, hnext⟩ := hkept.complete hhead
        refine ⟨hnext, ?_, fun hpublished => absurd rfl hpublished,
          ⟨fun hover => absurd hover hnone, fun hrefused => absurd trivial hrefused⟩⟩
        exact (contents_push hkept.bounded_used hroom head).symm
    · cases hstep
  | enter =>
    dsimp only at hstep
    split at hstep
    · cases hstep
    · cases hstep
      exact stepped_of_eq hkept trivial rfl rfl rfl rfl hnone
  | turn =>
    dsimp only at hstep
    split at hstep
    · next hturn =>
        cases hstep
        exact stepped_turn hrunning hkept hturn.2
    · cases hstep
  | leave =>
    dsimp only at hstep
    split at hstep
    · cases hstep
      exact stepped_of_eq hkept trivial rfl rfl rfl rfl hnone
    · cases hstep

/-- What is asked of a step: no index overflows, and a request is published in a
slot of the avail ring that has no entry which the device has still to read. -/
structure Survives (machine next : Machine count) : Prop where
  panic : next.panic ≠ some .overflow
  avail : next.disk.avail.nwrite < indexLimit
  used : next.disk.used.nread ≤ next.disk.used.nwrite ∧
    next.disk.used.nwrite < indexLimit
  vacant : next.disk.avail.nwrite ≠ machine.disk.avail.nwrite → Vacant machine.disk.avail

theorem Stepped.survives_iff {action : Action count} (hstepped : Stepped machine action next) :
    Survives machine next ↔ Admitted machine action := by
  have hkept := hstepped.kept
  have hsmall := hkept.small
  have hcounted := hkept.counted
  have havail := hkept.avail
  rw [← not_iff_not, ← hstepped.panic]
  refine ⟨fun hfails => ?_, fun hover hsurvives => hsurvives.panic hover⟩
  by_contra hrunning
  exact hfails ⟨hrunning, hsmall, ⟨hkept.used, by omega⟩, hstepped.vacant⟩

/-- In a run the counters never overflow, every request is published in a slot
without an entry that is still pending, and `intr` takes every entry of the used
ring once and in order, exactly if no request is published with `avail.idx` at
its last value. -/
theorem run_survives_iff {last : Machine count} {record : List (Machine count × Action count)}
    (hrun : Run step boot record last) :
    ((∀ entry ∈ record, ∀ next, step entry.1 entry.2 = some next → Survives entry.1 next) ∧
      record.flatMap reported = record.flatMap consumed ++ contents num last.disk.used) ↔
      ∀ entry ∈ record, Admitted entry.1 entry.2 := by
  have hfirst : Kept (boot : Machine count).disk (boot : Machine count).service
      (issues (boot : Machine count).threads) := kept_boot
  have hkeep : ∀ (machine : Machine count) (action : Action count) next,
      Kept machine.disk machine.service (issues machine.threads) →
      step machine action = some next → Kept next.disk next.service (issues next.threads) :=
    fun _ _ _ hkept hstep => (stepped_of_step hkept hstep).kept
  have hkept := (hrun.always hkeep hfirst).2
  have hqueue := hrun.queue hkeep
    (fun _ _ _ hkept hstep => (stepped_of_step hkept hstep).queue) hfirst
  constructor
  · rintro ⟨hsurvives, -⟩ entry hentry
    obtain ⟨next, hnext⟩ := hrun.step_of_mem hentry
    exact (stepped_of_step (hkept entry hentry) hnext).survives_iff.mp
      (hsurvives entry hentry next hnext)
  · intro hadmitted
    refine ⟨fun entry hentry next hnext => ?_, hqueue⟩
    exact (stepped_of_step (hkept entry hentry) hnext).survives_iff.mpr (hadmitted entry hentry)

end Steps

instance (machine : Machine count) :
    (action : Action count) → Decidable (Admitted machine action)
  | .proceed _ => inferInstanceAs (Decidable (_ → _ → _))
  | .call _ _ | .kill _ | .fetch | .complete _ | .enter | .turn | .leave => .isTrue trivial

/-- Two processes have their requests completed; the device reports the second
one first. -/
theorem run_survives_iff_two : ∃ record last,
    Run step boot record last ∧ record.map Prod.snd = twoRequests ∧
      ((∀ entry ∈ record, ∀ next, step entry.1 entry.2 = some next → Survives entry.1 next) ∧
        record.flatMap reported = record.flatMap consumed ++ contents num last.disk.used) ∧
      last.disk.used.nread = 2 ∧ last.disk.used.nwrite = 2 := by
  have hsome : ((twoRequests.foldlM (guarded Admitted step) boot).any fun last =>
      last.disk.used.nread = 2 ∧ last.disk.used.nwrite = 2) = true := by decide +kernel
  obtain ⟨record, last, hrun, hactions, hadmitted, hend⟩ := Run.of_any_admitted hsome
  exact ⟨record, last, hrun, hactions, (run_survives_iff hrun).mpr hadmitted, hend⟩

/-! ## Reading the first block again and again -/

def firstBlock : Request := ⟨0, 0, false⟩

def ring (nread nwrite : ℕ) : Buffer ℕ := ⟨fun _ => 0, nread, nwrite⟩

theorem push_ring (nread nwrite : ℕ) :
    push num 0 (ring nread nwrite) = ring nread (nwrite + 1) := by
  rw [push, ring, ring]
  dsimp only
  rw [update_eq_self_iff.mpr rfl]

def rested (requests : ℕ) : Machine 1 :=
  { boot with
    disk := { (boot : Machine 1).disk with
      avail := ring requests requests
      used := ring requests requests } }

def called (requests : ℕ) : Machine 1 :=
  { rested requests with threads := fun _ => .seeking firstBlock false }

def busy (avail used : Buffer ℕ) (info : Info) (service : List ℕ)
    (handling asleep : Bool) : Machine 1 where
  disk :=
    { format firstBlock ⟨0, 1, 2⟩ (boot : Machine 1).disk with
      avail := avail
      used := used
      free := update (update (update (fun _ => true) 0 false) 1 false) 2 false
      info := update (fun _ => ⟨none, 0, false⟩) 0 info }
  service := service
  handling := handling
  threads := fun _ => .issued firstBlock ⟨0, 1, 2⟩ asleep
  panic := none

theorem update_only (threads : Fin 1 → Thread) (thread : Thread) :
    update threads 0 thread = fun _ => thread := by
  funext proc
  rw [Subsingleton.elim proc 0, update_self]

theorem update_info (info info' : Info) :
    update (update (fun _ : ℕ => (⟨none, 0, false⟩ : Info)) 0 info) 0 info' =
      update (fun _ => ⟨none, 0, false⟩) 0 info' :=
  update_idem _ _ _

theorem step_call (requests : ℕ) :
    step (rested requests) (.call 0 firstBlock) = some (called requests) := by
  rw [called, ← update_only fun _ => .idle]
  rfl

theorem step_proceed {requests : ℕ} (hsmall : requests + 1 ≠ indexLimit) :
    step (called requests) (.proceed 0) =
      some (busy (ring requests (requests + 1)) (ring requests requests)
        ⟨some 0, 255, true⟩ [] false true) := by
  have hattempt : attempt 0 firstBlock (called requests) = .ok ⟨⟩
      (busy (ring requests (requests + 1)) (ring requests requests)
        ⟨some 0, 255, true⟩ [] false true) := by
    rw [attempt, bind_of_eq_ok (show alloc3Desc (called requests) =
      .ok (some ⟨0, 1, 2⟩) _ from rfl)]
    change (if requests + 1 = indexLimit then throw Panic.overflow else _ : Driver 1 PUnit) _ = _
    rw [if_neg hsmall, ← push_ring, busy, ← update_only fun _ => .seeking firstBlock false]
    rfl
  change some (exec (attempt 0 firstBlock) (called requests)) = _
  rw [exec, hattempt]

theorem step_fetch (requests : ℕ) :
    step (busy (ring requests (requests + 1)) (ring requests requests)
        ⟨some 0, 255, true⟩ [] false true) .fetch =
      some (busy (ring (requests + 1) (requests + 1)) (ring requests requests)
        ⟨some 0, 255, true⟩ [0] false true) := by
  change (if requests = requests + 1 then none else _) = _
  rw [if_neg (Nat.ne_add_one requests)]
  rfl

theorem step_complete (requests : ℕ) (avail : Buffer ℕ) :
    step (busy avail (ring requests requests) ⟨some 0, 255, true⟩ [0] false true) (.complete 0) =
      some (busy avail (ring requests (requests + 1)) ⟨some 0, 0, true⟩ [] false true) := by
  rw [← push_ring]
  unfold busy
  rw [← update_info ⟨some 0, 255, true⟩ ⟨some 0, 0, true⟩]
  rfl

theorem step_turn {requests : ℕ} (avail : Buffer ℕ) (hsmall : requests + 1 ≠ indexLimit) :
    step (busy avail (ring requests (requests + 1)) ⟨some 0, 0, true⟩ [] true true) .turn =
      some (busy avail (ring (requests + 1) (requests + 1)) ⟨some 0, 0, false⟩ [] true false) := by
  have hturn : turn (busy avail (ring requests (requests + 1))
      ⟨some 0, 0, true⟩ [] true true) = .ok ⟨⟩ (busy avail
        (ring (requests + 1) (requests + 1)) ⟨some 0, 0, false⟩ [] true false) := by
    unfold busy
    rw [← update_info ⟨some 0, 0, true⟩ ⟨some 0, 0, false⟩]
    change (if requests + 1 = indexLimit then throw Panic.overflow else _ : Driver 1 PUnit) _ = _
    rw [if_neg hsmall]
    rfl
  change (if _ ∧ requests ≠ requests + 1 then _ else none) = _
  apply (if_pos ⟨rfl, Nat.ne_add_one requests⟩).trans
  rw [exec, hturn]

theorem step_leave (requests : ℕ) (avail : Buffer ℕ) :
    step (busy avail (ring requests requests) ⟨some 0, 0, false⟩ [] true false) .leave =
      some (busy avail (ring requests requests) ⟨some 0, 0, false⟩ [] false false) := by
  change (if _ ∧ requests = requests then _ else none) = _
  exact if_pos ⟨rfl, rfl⟩

/-- The process gives the descriptors back. -/
theorem step_finish (requests : ℕ) :
    step (busy (ring requests requests) (ring requests requests)
        ⟨some 0, 0, false⟩ [] false false) (.proceed 0) = some (rested requests) := by
  have hdesc : update (update (update (format firstBlock ⟨0, 1, 2⟩
      (boot : Machine 1).disk).desc 0 VQDesc.new) 1 VQDesc.new) 2 VQDesc.new =
      fun _ => VQDesc.new := by
    funext i
    simp only [format, boot, update_apply]
    split_ifs <;> rfl
  have hfree : update (update (update (update (update (update
      (fun _ : ℕ => true) 0 false) 1 false) 2 false) 0 true) 1 true) 2 true = fun _ => true := by
    funext i
    simp only [update_apply]
    split_ifs <;> rfl
  have hops : (format firstBlock ⟨0, 1, 2⟩ (boot : Machine 1).disk).ops =
      (boot : Machine 1).disk.ops := update_eq_self_iff.mpr rfl
  have hinfo : update (update (fun _ : ℕ => (⟨none, 0, false⟩ : Info)) 0
      ⟨some 0, 0, false⟩) 0 ⟨none, 0, false⟩ = fun _ => ⟨none, 0, false⟩ := by
    rw [update_info]
    exact update_eq_self_iff.mpr rfl
  have htaken : ∀ i ∈ (⟨0, 1, 2⟩ : Chain).members, i < num ∧
      update (update (update (fun _ : ℕ => true) 0 false) 1 false) 2 false i =
        false := by decide
  have hawait : Ensures (await 0 firstBlock ⟨0, 1, 2⟩)
      (busy (ring requests requests) (ring requests requests) ⟨some 0, 0, false⟩ [] false false)
      (fun _ next => next = rested requests) fun _ _ => False := by
    rw [await, ensures_bind, ensures_get, ensures_ite]
    refine ⟨fun hdone => absurd hdone Bool.false_ne_true, fun _ => ?_⟩
    rw [ensures_bind, ensures_modifyDisk]
    have hnodup : (⟨0, 1, 2⟩ : Chain).members.Nodup := by decide
    have hformatted : Formatted (format firstBlock ⟨0, 1, 2⟩
        (boot : Machine 1).disk).desc firstBlock ⟨0, 1, 2⟩ := formatted_format hnodup
    refine Ensures.bind (ensures_freeChain hnodup ?_ hformatted) ?_
    · exact htaken
    rintro _ _ rfl
    change ({
      disk := ⟨update (update (update (format firstBlock ⟨0, 1, 2⟩
          (boot : Machine 1).disk).desc 0 VQDesc.new) 1 VQDesc.new) 2 VQDesc.new,
        ring requests requests, ring requests requests,
        update (update (update (update (update (update
          (fun _ : ℕ => true) 0 false) 1 false) 2 false) 0 true) 1 true) 2 true,
        update (update (fun _ : ℕ => (⟨none, 0, false⟩ : Info)) 0
          ⟨some 0, 0, false⟩) 0 ⟨none, 0, false⟩,
        (format firstBlock ⟨0, 1, 2⟩ (boot : Machine 1).disk).ops⟩
      service := []
      handling := false
      threads := update (wakeUp .free (wakeUp .free (wakeUp .free
        fun _ => .issued firstBlock ⟨0, 1, 2⟩ false))) 0 .idle
      panic := none } : Machine 1) = _
    rw [hdesc, hfree, hinfo, hops, update_only]
    rfl
  change some (exec (await 0 firstBlock ⟨0, 1, 2⟩) _) = _
  exact congrArg some (exec_of_ensures hawait (fun _ _ => id) fun _ _ => False.elim)

def reading : List (Action 1) :=
  [.call 0 firstBlock, .proceed 0, .fetch, .complete 0, .enter, .turn, .leave, .proceed 0]

theorem foldlM_reading {requests : ℕ} (hsmall : requests + 1 ≠ indexLimit) :
    reading.foldlM step (rested requests) = some (rested (requests + 1)) := by
  simp only [reading, List.foldlM_cons, List.foldlM_nil, step_call,
    step_proceed hsmall, step_fetch, step_complete, Option.bind_eq_bind, Option.bind_some]
  rw [show step (busy (ring (requests + 1) (requests + 1))
    (ring requests (requests + 1)) ⟨some 0, 0, true⟩ [] false true) .enter =
    some (busy (ring (requests + 1) (requests + 1))
      (ring requests (requests + 1)) ⟨some 0, 0, true⟩ [] true true) from rfl]
  simp only [Option.bind_some, step_turn _ hsmall, step_leave, step_finish]
  rfl

/-- Any number of requests can be made, up to the last one the index can
count. -/
theorem run_rested (requests : ℕ) (hsmall : requests < indexLimit) :
    ∃ record, Run step boot record (rested requests) := by
  induction requests with
  | zero => exact ⟨[], Run.done boot⟩
  | succ requests ih =>
    obtain ⟨record, hrun⟩ := ih (by omega)
    obtain ⟨more, hmore, -⟩ := Run.of_foldlM (foldlM_reading hsmall.ne)
    exact ⟨record ++ more, hrun.append hmore⟩

/-- The request after that stops the kernel. -/
theorem step_overflow {requests : ℕ} (hlimit : requests + 1 = indexLimit) :
    step (called requests) (.proceed 0) =
      some { called requests with panic := some .overflow } := by
  have hattempt : Ensures (attempt 0 firstBlock) (called requests)
      (fun _ _ => False) fun cause _ => cause = .overflow := by
    rw [attempt, Ensures, bind_of_eq_ok (show alloc3Desc (called requests) =
      .ok (some ⟨0, 1, 2⟩) _ from rfl)]
    change Ensures (if requests + 1 = indexLimit then throw Panic.overflow
      else _) _ _ _
    rw [if_pos hlimit]
    rfl
  change some (exec (attempt 0 firstBlock) (called requests)) = _
  rw [exec]
  cases hrun : attempt 0 firstBlock (called requests) with
  | ok value next => exact (hattempt.eq_ok hrun).elim
  | error cause next => rw [hattempt.eq_error hrun]

theorem not_run_survives :
    ¬∀ record (last : Machine 1), Run step boot record last →
      (∀ entry ∈ record, ∀ next, step entry.1 entry.2 = some next → Survives entry.1 next) ∧
        record.flatMap reported = record.flatMap consumed ++ contents num last.disk.used := by
  intro hall
  obtain ⟨record, hrun⟩ := run_rested (indexLimit - 1) (by decide)
  have hcalled := hrun.concat (step_call (indexLimit - 1))
  have hlimit : indexLimit - 1 + 1 = indexLimit := rfl
  have hstep := step_overflow hlimit
  have hsurvives := (hall _ _ (hcalled.concat hstep)).1 (called (indexLimit - 1), .proceed 0)
    (List.mem_append_right _ List.mem_cons_self) _ hstep
  exact hsurvives.panic rfl

end RxOs.DiskSurvival
