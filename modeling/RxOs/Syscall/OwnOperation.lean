import RxOs.Syscall.System

/-!
# Logging inside one's own operation

A system call calls `Log::write` outside its own operation in two situations
only: it gives back the last handle on an inode without links after `end_op`,
or without ever having called `begin_op`, and it reads a block that is not
mapped, which `InodeData::map` then allocates.
-/

namespace RxOs.OwnOperation

open Exec Interaction Transition Params Kernel LogUse Operations File
open Transactions Effects RxOs.System

theorem stray_of_pos {trace : History} (hdepth : 0 < depthOf trace)
    (kernel next : KernelState) : stray trace kernel next = 0 := by rw [stray, if_neg hdepth.ne']

theorem stray_of_logWrites {kernel next : KernelState} (trace : History)
    (hevents : logWrites next.vol.events = logWrites kernel.vol.events) :
    stray trace kernel next = 0 := by rw [stray, hevents, Nat.sub_self, ite_self]

/-- An operation that the strict rule permits does not log outside the caller's
own operation, and does not stop with the panic of `Log::write`. -/
theorem ensures_perform_stray {proc : Proc} {answer : Option ℕ} {op : Op}
    {kernel : KernelState} {trace : History} (hpermits : permits true op (depthOf trace))
    (hopen : depthOf trace ≤ kernel.outstanding) (hquiet : depthOf trace = 0 → Op.Quiet kernel op) :
    Ensures (perform proc answer op) kernel (fun _ next => stray trace kernel next = 0)
      fun cause next => ∀ panic, cause = .panic panic →
        stray trace kernel next = 0 ∧ panic ≠ .logOutOfRecording := by
  obtain ⟨hforeign, hcloses, hlogs⟩ := hpermits
  rcases Nat.eq_zero_or_pos (depthOf trace) with hzero | hpos
  · cases hkind : Op.kind op with
    | foreign => exact absurd hkind hforeign
    | closes => exact absurd (hcloses hkind) (by omega)
    | logs => exact absurd (hlogs rfl hkind) (by omega)
    | opens =>
      obtain rfl := eq_beginOp_of_kind hkind
      refine ensures_perform_beginOp.imp ?_ ?_
      · intro _ next hnext
        exact stray_of_logWrites trace hnext.2
      · rintro cause next rfl panic hpanic
        cases hpanic
    | plain =>
      refine (ensures_perform_plain hkind (hquiet hzero)).imp ?_ ?_
      · intro _ next hrel
        exact stray_of_logWrites trace hrel.2
      · rintro cause next ⟨hrel, hcause⟩ panic rfl
        exact ⟨stray_of_logWrites trace hrel.2, fun heq => hcause (congrArg Stop.panic heq)⟩
  · refine (ensures_perform hforeign).imp ?_ ?_
    · intro _ next _
      exact stray_of_pos hpos kernel next
    · rintro cause next hcause panic rfl
      exact ⟨stray_of_pos hpos kernel next, fun heq =>
        hcause (Nat.lt_of_lt_of_le hpos hopen) (congrArg Stop.panic heq)⟩

/-- Nothing has been logged outside the caller's own operation so far. -/
structure Sound (sys : Machine) : Prop where
  consistent : ∀ proc, (sys.threads proc).Consistent true
  inside_le : sys.halted = none → sys.inside ≤ sys.kernel.outstanding
  outside : sys.outside = 0
  halted : sys.halted ≠ some .logOutOfRecording

theorem AtRest.sound {sys : Machine} (hrest : AtRest sys) : Sound sys where
  consistent := hrest.consistent true
  inside_le := fun _ => by
    rw [hrest.inside_eq]
    exact Nat.zero_le _
  outside := hrest.outside
  halted := by
    rw [hrest.halted]
    exact nofun

theorem Sound.ensures_perform_stray {sys : Machine} {proc : Proc}
    {answer : Option ℕ} {call : Syscall} {trace : History} {op : Op}
    {rest : op.Reply → Call SysResult} (hsound : Sound sys)
    (hrunning : sys.halted = none) (hquiet : sys.Quiet (.proceed proc answer))
    (hthread : sys.threads proc = .running call trace (.perform op rest)) :
    Ensures (perform proc answer op) sys.kernel (fun _ next => stray trace sys.kernel next = 0)
      fun cause next => ∀ panic, cause = .panic panic →
        stray trace sys.kernel next = 0 ∧ panic ≠ .logOutOfRecording := by
  have hcaller := hsound.consistent proc
  have hdepth : (sys.threads proc).depth ≤ sys.inside :=
    Finset.single_le_sum (f := fun other => (sys.threads other).depth)
      (fun _ _ => Nat.zero_le _) (Finset.mem_univ proc)
  rw [hthread] at hcaller hdepth
  exact OwnOperation.ensures_perform_stray hcaller.permits
    (hdepth.trans (hsound.inside_le hrunning)) (hquiet.of_running hthread)

/-- A quiet step logs inside the caller's own operation. -/
theorem step_sound {sys next : Machine} {action : Action}
    (hsound : Sound sys) (hquiet : sys.Quiet action)
    (hstep : sys.step action = some next) : Sound next := by
  obtain ⟨hrunning, hmoves⟩ := step_moves hstep
  have hconsistent := step_consistent hsound.consistent (fun _ => hquiet) hstep
  have hinside : next.halted = none → next.inside ≤ next.kernel.outstanding := by
    intro hhalted
    have hcount := step_outstanding hsound.consistent hstep hhalted
    have hle := hsound.inside_le hrunning
    omega
  cases hmoves with
  | enter | leaves | forks | reaps => exact ⟨hconsistent, hinside, hsound.outside, hsound.halted⟩
  | performs caller call trace op rest reply kernel hthread hperform =>
    have hstray := (hsound.ensures_perform_stray hrunning hquiet hthread).eq_ok hperform
    refine ⟨hconsistent, hinside, ?_, hsound.halted⟩
    change sys.outside + stray trace sys.kernel kernel = 0
    rw [hsound.outside, hstray]
  | panics caller call trace op rest cause kernel hthread hperform =>
    obtain ⟨hstray, hcause⟩ := (hsound.ensures_perform_stray hrunning hquiet
      hthread).eq_error hperform cause rfl
    refine ⟨hconsistent, hinside, ?_, fun heq => ?_⟩
    · change sys.outside + stray trace sys.kernel kernel = 0
      rw [hsound.outside, hstray]
    · exact hcause (Option.some.inj heq)

/-- In a run of quiet steps, every call of `Log::write` lies between the
caller's own `begin_op` and `end_op`, and the panic of `Log::write` outside of
operations is not reached. -/
theorem run_ownOperation {first last : Machine} {record : List (Machine × Action)}
    (hrun : Run Machine.step first record last) (hrest : AtRest first)
    (hquiet : ∀ entry ∈ record, entry.1.Quiet entry.2) :
    (last.outside = 0 ∧ last.halted ≠ some .logOutOfRecording) ∧
      ∀ entry ∈ record, entry.1.outside = 0 ∧ entry.1.halted ≠ some .logOutOfRecording := by
  obtain ⟨hlast, hrecord⟩ := hrun.invariant
    (fun _ _ _ hsound hquiet hstep => step_sound hsound hquiet hstep) (AtRest.sound hrest) hquiet
  exact ⟨⟨hlast.outside, hlast.halted⟩, fun entry hentry =>
    ⟨(hrecord entry hentry).outside, (hrecord entry hentry).halted⟩⟩

/-- `mkdir("/d")` is quiet and calls `Log::write` ten times. -/
theorem run_ownOperation_mkdir : ∃ record last, Run Machine.step bootMachine record last ∧
      record.map Prod.snd = soloCall (.mkdir [47, 100, 0]) 36 ∧
      logWrites last.kernel.vol.events = 10 ∧
      (last.outside = 0 ∧ last.halted ≠ some .logOutOfRecording) ∧
      ∀ entry ∈ record, entry.1.outside = 0 ∧ entry.1.halted ≠ some .logOutOfRecording := by
  have hwrites : ((soloCall (.mkdir [47, 100, 0]) 36).foldlM (guarded Machine.Quiet Machine.step)
      bootMachine).any (fun sys => logWrites sys.kernel.vol.events = 10) = true := by
    decide +kernel
  obtain ⟨record, last, hrun, hactions, hquiet, hcount⟩ := Run.of_any_admitted hwrites
  exact ⟨record, last, hrun, hactions, hcount, run_ownOperation hrun atRest_bootMachine hquiet⟩

/-- `unlink("/f")`, the only call there is, hits the panic. -/
theorem exists_run_outOfRecording : ¬∀ (first last : Machine) (record : List (Machine × Action)),
    Run Machine.step first record last → AtRest first →
      last.outside = 0 ∧ last.halted ≠ some .logOutOfRecording := by
  intro hsound
  have heval : ((soloCall (.unlink [47, 102, 0]) 22).foldlM Machine.step
      bootMachine).map Machine.halted = some (some .logOutOfRecording) := by decide +kernel
  obtain ⟨last, hfold, hlast⟩ := Option.map_eq_some_iff.mp heval
  obtain ⟨record, hrun, -⟩ := Run.of_foldlM hfold
  exact (hsound _ _ record hrun atRest_bootMachine).2 hlast

end RxOs.OwnOperation
