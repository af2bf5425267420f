import RxOs.Fs.LogProtocol

/-!
# The log state machine

The same steps as in `RxOs.LogProtocol`, without a limit on what an operation
logs and with operations that may nest: all that is asked of the processes is
that an `end_op` is matched by an earlier `begin_op` of the same process and
that a process logs blocks only in between.  A committing process remembers the
header it found, since `commit_no_lock` goes on reading it after the `LOG` mutex
has been released.
-/

namespace RxOs.LogMachine

open Function Params LogState Transition
open LogProtocol (Action)

/-- What a process has to do with a commit. -/
inductive Stage
  | idle
  | reading (found : LogHeader)
  | emptied

/-- The log, one entry for every operation that is open, and the stage of each
process. -/
structure Machine (Proc : Type*) where
  log : Log
  ops : Multiset Proc
  stage : Proc → Stage

/-- The log after boot, on a log area of `size` blocks starting at `start`. -/
def Machine.initial (Proc : Type*) (start size : ℕ) : Machine Proc where
  log := (LogProtocol.System.initial Proc start size).log
  ops := 0
  stage := fun _ => .idle

variable {Proc : Type*} [DecidableEq Proc]

/-- One critical section of the `LOG` mutex, or the end of `commit_no_lock`
where the header is emptied.  A panic stops the kernel: there is no next
state. -/
def Machine.step (machine : Machine Proc) :
    Action Proc → Option (Machine Proc)
  | .beginOp proc =>
    match machine.stage proc, machine.log.beginOp with
    | .idle, some log => some { machine with log, ops := proc ::ₘ machine.ops }
    | _, _ => none
  | .write proc blockno =>
    match machine.stage proc, machine.log.write blockno with
    | .idle, .ok log =>
      if proc ∈ machine.ops then some { machine with log } else none
    | _, _ => none
  | .endOp proc =>
    match machine.stage proc, machine.log.endOp with
    | .idle, .ok (last, log) =>
      if proc ∈ machine.ops then
        some ⟨log, machine.ops.erase proc, update machine.stage proc
          (if last then .reading log.lh else .idle)⟩
      else none
    | _, _ => none
  | .commit proc =>
    match machine.stage proc with
    | .reading _ =>
      some { machine with
        log := machine.log.emptied
        stage := update machine.stage proc .emptied }
    | _ => none
  | .release proc =>
    match machine.stage proc with
    | .emptied =>
      some { machine with
        log := { machine.log with commiting := false }
        stage := update machine.stage proc .idle }
    | _ => none

/-- Everything a step can do, with its guards. -/
inductive Moves (machine : Machine Proc) : Action Proc → Machine Proc → Prop
  | beginOp {proc log} (hstage : machine.stage proc = .idle)
      (hlog : machine.log.beginOp = some log) :
      Moves machine (.beginOp proc) { machine with log, ops := proc ::ₘ machine.ops }
  | write {proc blockno log} (hop : proc ∈ machine.ops)
      (hlog : machine.log.write blockno = .ok log) :
      Moves machine (.write proc blockno) { machine with log }
  | endOp {proc last log} (hstage : machine.stage proc = .idle)
      (hop : proc ∈ machine.ops) (hlog : machine.log.endOp = .ok (last, log)) :
      Moves machine (.endOp proc) ⟨log, machine.ops.erase proc,
        update machine.stage proc (if last then .reading log.lh else .idle)⟩
  | commit {proc found} (hstage : machine.stage proc = .reading found) :
      Moves machine (.commit proc) { machine with
        log := machine.log.emptied
        stage := update machine.stage proc .emptied }
  | release {proc} (hstage : machine.stage proc = .emptied) :
      Moves machine (.release proc) { machine with
        log := { machine.log with commiting := false }
        stage := update machine.stage proc .idle }

theorem Machine.step_moves {machine next : Machine Proc} {action : Action Proc}
    (hstep : machine.step action = some next) : Moves machine action next := by
  cases action with
  | beginOp proc =>
    simp only [Machine.step] at hstep
    split at hstep
    · next log hstage hlog =>
        cases hstep
        exact .beginOp hstage hlog
    · cases hstep
  | write proc blockno =>
    simp only [Machine.step] at hstep
    split at hstep
    · next log hstage hlog =>
        split at hstep
        · next hop =>
            cases hstep
            exact .write hop hlog
        · cases hstep
    · cases hstep
  | endOp proc =>
    simp only [Machine.step] at hstep
    split at hstep
    · next last log hstage hlog =>
        split at hstep
        · next hop =>
            cases hstep
            exact .endOp hstage hop hlog
        · cases hstep
    · cases hstep
  | commit proc =>
    simp only [Machine.step] at hstep
    split at hstep
    · next found hstage =>
        cases hstep
        exact .commit hstage
    · cases hstep
  | release proc =>
    simp only [Machine.step] at hstep
    split at hstep
    · next hstage =>
        cases hstep
        exact .release hstage
    · cases hstep

/-! ## The invariant -/

/-- The counters, the flag and the stages agree, and the header is as the
committing process found it. -/
structure Coherent (machine : Machine Proc) : Prop where
  card_ops : machine.ops.card = machine.log.outstanding
  outstanding_le : machine.log.outstanding ≤ 2
  nodup : machine.log.lh.logged.Nodup
  commiting : ∀ proc, machine.stage proc ≠ .idle → machine.log.commiting = true
  committer : ∀ left right, machine.stage left ≠ .idle → machine.stage right ≠ .idle → left = right
  exclusive : machine.log.commiting = true → machine.log.outstanding = 0
  found : ∀ proc header, machine.stage proc = .reading header → machine.log.lh = header

omit [DecidableEq Proc] in
theorem coherent_initial (start size : ℕ) :
    Coherent (Machine.initial Proc start size) where
  card_ops := rfl
  outstanding_le := Nat.zero_le _
  nodup := by simp [Machine.initial, LogProtocol.System.initial, LogHeader.logged]
  commiting := fun _ hstage => absurd rfl hstage
  committer := fun _ _ hstage => absurd rfl hstage
  exclusive := fun _ => rfl
  found := fun _ _ hstage => nomatch hstage

section Steps

variable {machine next : Machine Proc} {action : Action Proc}

omit [DecidableEq Proc] in
theorem Coherent.idle_of_not_commiting (hcoherent : Coherent machine)
    (hflag : machine.log.commiting = false) (proc : Proc) : machine.stage proc = .idle := by
  by_contra hstage
  rw [hcoherent.commiting proc hstage] at hflag
  cases hflag

omit [DecidableEq Proc] in
theorem Coherent.not_commiting (hcoherent : Coherent machine) {proc : Proc}
    (hop : proc ∈ machine.ops) : 0 < machine.log.outstanding ∧ machine.log.commiting = false := by
  have hpos : 0 < machine.log.outstanding := by
    rw [← hcoherent.card_ops]
    exact Multiset.card_pos_iff_exists_mem.mpr ⟨proc, hop⟩
  refine ⟨hpos, ?_⟩
  by_contra hflag
  have hzero := hcoherent.exclusive (by simpa using hflag)
  omega

/-- The stages of a machine in which `proc` alone may be at work. -/
theorem stage_update_ne_idle {stage : Proc → Stage} {proc other : Proc}
    {changed : Stage} (hothers : ∀ other ≠ proc, stage other = .idle)
    (hother : update stage proc changed other ≠ .idle) : other = proc := by
  by_contra hne
  rw [update_of_ne hne] at hother
  exact hother (hothers other hne)

theorem Coherent.moves (hcoherent : Coherent machine)
    (hmoves : Moves machine action next) : Coherent next := by
  have hothers : ∀ proc, machine.stage proc ≠ .idle →
      ∀ other ≠ proc, machine.stage other = .idle := by
    intro proc hproc other hne
    by_contra hother
    exact hne (hcoherent.committer other proc hother hproc)
  cases hmoves with
  | @beginOp proc log hstage hlog =>
    obtain ⟨hflag, hroom, rfl⟩ := Log.beginOp_eq_some hlog
    have hidle := hcoherent.idle_of_not_commiting hflag
    refine ⟨?_, ?_, hcoherent.nodup, ?_, ?_, ?_, ?_⟩
    · simpa using hcoherent.card_ops
    · have hop : maxOpBlocks = 10 := rfl
      have hsize : logSize = 30 := rfl
      rw [hop, hsize] at hroom
      change machine.log.outstanding + 1 ≤ 2
      omega
    · intro other hother
      exact absurd (hidle other) hother
    · intro left right hleft
      exact absurd (hidle left) hleft
    · intro hset
      change machine.log.commiting = true at hset
      rw [hflag] at hset
      cases hset
    · intro other header hother
      rw [hidle other] at hother
      cases hother
  | @write proc blockno log hop hlog =>
    obtain ⟨-, hflag⟩ := hcoherent.not_commiting hop
    have hidle := hcoherent.idle_of_not_commiting hflag
    obtain ⟨-, ⟨-, rfl⟩ | ⟨hnew, hlen, -, rfl⟩⟩ := Log.write_eq_ok hlog
    · exact hcoherent
    · refine ⟨hcoherent.card_ops, hcoherent.outstanding_le, ?_,
        hcoherent.commiting, hcoherent.committer, hcoherent.exclusive, ?_⟩
      · change (machine.log.lh.push blockno).logged.Nodup
        rw [LogHeader.logged_push _ _ (by omega), ← List.concat_eq_append, List.nodup_concat]
        exact ⟨hnew, hcoherent.nodup⟩
      · intro other header hother
        rw [hidle other] at hother
        cases hother
  | @endOp proc last log hstage hop hlog =>
    obtain ⟨-, hflag, hlast⟩ := Log.endOp_eq_ok hlog
    have hidle := hcoherent.idle_of_not_commiting hflag
    have hwork : ∀ other, update machine.stage proc
        (if last then .reading log.lh else .idle) other ≠ .idle → other = proc :=
      fun other => stage_update_ne_idle fun other _ => hidle other
    have hcard : (machine.ops.erase proc).card = log.outstanding := by
      rw [Multiset.card_erase_of_mem hop, hcoherent.card_ops]
      rcases hlast with ⟨-, hone, rfl⟩ | ⟨-, -, rfl⟩
      · rw [hone]
        rfl
      · rfl
    refine ⟨hcard, ?_, ?_, ?_, ?_, ?_, ?_⟩
    · have hle := hcoherent.outstanding_le
      rcases hlast with ⟨-, -, rfl⟩ | ⟨-, -, rfl⟩
      · exact Nat.zero_le _
      · exact (Nat.sub_le _ _).trans hle
    · rcases hlast with ⟨-, -, rfl⟩ | ⟨-, -, rfl⟩
      · exact hcoherent.nodup
      · exact hcoherent.nodup
    · intro other hother
      obtain rfl := hwork other hother
      rcases hlast with ⟨rfl, -, rfl⟩ | ⟨rfl, -, rfl⟩
      · rfl
      · simp at hother
    · intro left right hleft hright
      rw [hwork left hleft, hwork right hright]
    · intro hset
      rcases hlast with ⟨-, -, rfl⟩ | ⟨-, -, rfl⟩
      · rfl
      · rw [hflag] at hset
        cases hset
    · intro other header hother
      dsimp only at hother
      obtain rfl := hwork other (by rw [hother]; nofun)
      cases last with
      | false => simp at hother
      | true => simpa using hother
  | @commit proc found hstage =>
    have hwork : ∀ other, update machine.stage proc .emptied other ≠ .idle → other = proc :=
      fun other => stage_update_ne_idle (hothers proc (by rw [hstage]; nofun))
    have hflag := hcoherent.commiting proc (by rw [hstage]; nofun)
    refine ⟨hcoherent.card_ops, hcoherent.outstanding_le,
      List.nodup_nil, fun _ _ => hflag, ?_, hcoherent.exclusive, ?_⟩
    · intro left right hleft hright
      rw [hwork left hleft, hwork right hright]
    · intro other header hother
      dsimp only at hother
      obtain rfl := hwork other (by rw [hother]; nofun)
      simp at hother
  | @release proc hstage =>
    have hidle : ∀ other, update machine.stage proc .idle other = .idle := by
      intro other
      by_cases hne : other = proc
      · rw [hne, update_self]
      · rw [update_of_ne hne]
        exact hothers proc (by rw [hstage]; nofun) other hne
    refine ⟨hcoherent.card_ops, hcoherent.outstanding_le, hcoherent.nodup, ?_, ?_, nofun, ?_⟩
    · intro other hother
      exact absurd (hidle other) hother
    · intro left right hleft
      exact absurd (hidle left) hleft
    · intro other header hother
      dsimp only at hother
      rw [hidle other] at hother
      cases hother

/-- A logged block stays in the header until a commit empties it. -/
theorem Moves.mem_logged (hmoves : Moves machine action next)
    (haction : ∀ proc, action ≠ .commit proc) {blockno : UInt32}
    (hlogged : blockno ∈ machine.log.lh.logged) : blockno ∈ next.log.lh.logged := by
  cases hmoves with
  | beginOp hstage hlog =>
    obtain ⟨-, -, rfl⟩ := Log.beginOp_eq_some hlog
    exact hlogged
  | write hop hlog =>
    obtain ⟨-, ⟨-, rfl⟩ | ⟨-, hlen, -, rfl⟩⟩ := Log.write_eq_ok hlog
    · exact hlogged
    · change blockno ∈ (machine.log.lh.push _).logged
      rw [LogHeader.logged_push _ _ (by omega)]
      exact List.mem_append_left _ hlogged
  | endOp hstage hop hlog =>
    obtain ⟨-, -, ⟨-, -, rfl⟩ | ⟨-, -, rfl⟩⟩ := Log.endOp_eq_ok hlog
    · exact hlogged
    · exact hlogged
  | commit hstage => exact absurd rfl (haction _)
  | release hstage => exact hlogged

/-- The header changes only when a block is logged and when a commit ends. -/
theorem Moves.lh_eq (hmoves : Moves machine action next)
    (hwrite : ∀ proc blockno, action ≠ .write proc blockno)
    (hcommit : ∀ proc, action ≠ .commit proc) :
    next.log.lh = machine.log.lh := by
  cases hmoves with
  | beginOp hstage hlog =>
    obtain ⟨-, -, rfl⟩ := Log.beginOp_eq_some hlog
    rfl
  | write hop hlog => exact absurd rfl (hwrite _ _)
  | endOp hstage hop hlog =>
    obtain ⟨-, -, ⟨-, -, rfl⟩ | ⟨-, -, rfl⟩⟩ := Log.endOp_eq_ok hlog
    · rfl
    · rfl
  | commit hstage => exact absurd rfl (hcommit _)
  | release hstage => rfl

/-- The log area stays where it is. -/
theorem Moves.area_eq (hmoves : Moves machine action next) :
    next.log.start = machine.log.start ∧
      next.log.size = machine.log.size := by
  cases hmoves with
  | beginOp hstage hlog =>
    obtain ⟨-, -, rfl⟩ := Log.beginOp_eq_some hlog
    exact ⟨rfl, rfl⟩
  | write hop hlog =>
    obtain ⟨-, ⟨-, rfl⟩ | ⟨-, -, -, rfl⟩⟩ := Log.write_eq_ok hlog
    · exact ⟨rfl, rfl⟩
    · exact ⟨rfl, rfl⟩
  | endOp hstage hop hlog =>
    obtain ⟨-, -, ⟨-, -, rfl⟩ | ⟨-, -, rfl⟩⟩ := Log.endOp_eq_ok hlog
    · exact ⟨rfl, rfl⟩
    · exact ⟨rfl, rfl⟩
  | _ => exact ⟨rfl, rfl⟩

omit [DecidableEq Proc] in
theorem mem_logged_of_write {log after : Log} {blockno : UInt32}
    (hlog : log.write blockno = .ok after) : blockno ∈ after.lh.logged := by
  obtain ⟨-, ⟨hmem, rfl⟩ | ⟨-, hlen, -, rfl⟩⟩ := Log.write_eq_ok hlog
  · exact hmem
  · change blockno ∈ (log.lh.push blockno).logged
    rw [LogHeader.logged_push _ _ (by omega)]
    simp

end Steps

/-! ## Whole runs -/

/-- What holds of the log in one state: a commit excludes open operations and
other commits, at most two operations are open, the logged blocks are distinct,
neither panic of `end_op` is reachable by an operation that was begun, and
while a commit reads the header the header is the one it found and no process
is in a position to log. -/
structure Orderly (machine : Machine Proc) : Prop where
  exclusive : machine.log.commiting = true → machine.log.outstanding = 0
  single : ∀ left right, machine.stage left ≠ .idle → machine.stage right ≠ .idle → left = right
  outstanding_le : machine.log.outstanding ≤ 2
  distinct : machine.log.lh.logged.Nodup
  endOp_ok : ∀ proc ∈ machine.ops, ∃ result, machine.log.endOp = .ok result
  undisturbed : ∀ proc found, machine.stage proc = .reading found →
    machine.log.lh = found ∧ machine.ops = 0

omit [DecidableEq Proc] in
theorem Coherent.orderly {machine : Machine Proc}
    (hcoherent : Coherent machine) : Orderly machine where
  exclusive := hcoherent.exclusive
  single := hcoherent.committer
  outstanding_le := hcoherent.outstanding_le
  distinct := hcoherent.nodup
  endOp_ok := by
    intro proc hop
    obtain ⟨hpos, hflag⟩ := hcoherent.not_commiting hop
    unfold Log.endOp
    rw [if_neg (by omega), hflag]
    split
    · contradiction
    · split
      · exact ⟨_, rfl⟩
      · exact ⟨_, rfl⟩
  undisturbed := by
    intro proc found hstage
    have hflag := hcoherent.commiting proc (by rw [hstage]; nofun)
    refine ⟨hcoherent.found proc found hstage, ?_⟩
    rw [← Multiset.card_eq_zero, hcoherent.card_ops, hcoherent.exclusive hflag]

theorem coherent_step (machine : Machine Proc) (action : Action Proc)
    (next : Machine Proc) (hcoherent : Coherent machine) (_ : True)
    (hstep : machine.step action = some next) : Coherent next :=
  hcoherent.moves (Machine.step_moves hstep)

/-- A block in the header is there in every later state up to the end of the
next commit. -/
theorem Run.mem_logged {first last : Machine Proc} {record : List (Machine Proc × Action Proc)}
    (hrun : Run Machine.step first record last) {blockno : UInt32}
    (hlogged : blockno ∈ first.log.lh.logged)
    (hrecord : ∀ entry ∈ record, ∀ proc, entry.2 ≠ .commit proc) : blockno ∈ last.log.lh.logged :=
  (hrun.invariant (fun _ _ _ hmem haction hstep =>
      (Machine.step_moves hstep).mem_logged haction hmem) hlogged hrecord).1

/-- Every run keeps the log in order, and what an operation logs is in the
header that the first commit after the `end_op` of that operation works
with. -/
theorem run_orderly {start size : ℕ} {last : Machine Proc}
    {record : List (Machine Proc × Action Proc)}
    (hrun : Run Machine.step (Machine.initial Proc start size) record last) :
    (Orderly last ∧ ∀ entry ∈ record, Orderly entry.1) ∧
    ∀ (before during after : List (Machine Proc × Action Proc))
      (logging ending : Machine Proc) (proc : Proc) (blockno : UInt32),
      record = before ++ (logging, .write proc blockno) ::
        (during ++ (ending, .endOp proc) :: after) → (∀ entry ∈ during, proc ∈ entry.1.ops) →
      (∀ entry ∈ after, ∀ committer, entry.2 ≠ .commit committer) → blockno ∈ last.log.lh.logged ∧
        ∀ committer found, last.stage committer = .reading found → blockno ∈ found.logged := by
  have hinvariant := hrun.invariant coherent_step (coherent_initial start size) fun _ _ => trivial
  refine ⟨⟨hinvariant.1.orderly, fun entry hentry => (hinvariant.2 entry hentry).orderly⟩, ?_⟩
  intro before during after logging ending proc blockno hrecord hduring hafter
  subst hrecord
  obtain ⟨first, -, hsecond⟩ := hrun.split
  have hopen : ∀ entry ∈ during, ∀ committer, entry.2 ≠ .commit committer := by
    rintro ⟨machine, action⟩ hentry committer rfl
    have hmem : (machine, Action.commit committer) ∈ before ++ (logging, .write proc blockno) ::
          (during ++ (ending, .endOp proc) :: after) := by simp [hentry]
    have horderly := (hinvariant.2 _ hmem).orderly
    obtain ⟨next, hstep⟩ := hrun.step_of_mem hmem
    cases Machine.step_moves hstep with
    | commit hstage =>
      have hops := hduring _ hentry
      rw [(horderly.undisturbed committer _ hstage).2] at hops
      cases hops
  have hlogged : blockno ∈ last.log.lh.logged := by
    cases hsecond with
    | step hstep hrest =>
      cases Machine.step_moves hstep with
      | write hop hlog =>
        refine Run.mem_logged hrest (mem_logged_of_write hlog) ?_
        intro entry hentry committer haction
        rcases List.mem_append.mp hentry with hmem | hmem
        · exact hopen entry hmem committer haction
        · rcases List.mem_cons.mp hmem with rfl | hmem
          · cases haction
          · exact hafter entry hmem committer haction
  refine ⟨hlogged, ?_⟩
  intro committer found hstage
  rw [← hinvariant.1.found committer found hstage]
  exact hlogged

/-- An operation that logs one block, seen when its `end_op` has started the
commit. -/
theorem run_orderly_commit : ∃ record last,
    Run Machine.step (Machine.initial (Fin 2) 2 logSize) record last ∧
      record.map Prod.snd = [.beginOp 0, .write 0 7, .endOp 0] ∧
      Orderly last ∧ 7 ∈ last.log.lh.logged := by
  have hrun : Run Machine.step (Machine.initial (Fin 2) 2 logSize)
      [(_, .beginOp 0), (_, .write 0 7), (_, .endOp 0)] _ :=
    .step rfl (.step rfl (.step rfl (.done _)))
  have horderly := run_orderly hrun
  refine ⟨_, _, hrun, rfl, horderly.1.1, ?_⟩
  exact (horderly.2 [_] [] [] _ _ 0 7 rfl (by simp) (by simp)).1

end RxOs.LogMachine
