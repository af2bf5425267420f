import RxOs.Process.Scheduler

/-!
# Signals

`Signals::kill` searches `idx_pids` for a process id.  What it finds is the entry
itself and not its position, so the id, where the slot of the process is meant,
is the index into the table of received signals.  The entries of free slots are
`NPROC`, which is an id that a process may get, or, if the last process there
left by `process::exit`, still the id of that process.
-/

namespace RxOs.Signals

open Function Params Transition
open Kernel (Proc)
open Scheduler (Path)

/-- A slot of the process table: free, taken since `alloc_proc`, or left by
`exit` and not freed yet. -/
inductive Slot
  | unused
  | live (pid : ℕ)
  | zombie
  deriving DecidableEq

/-- The process table and `SIGNALS`.  The counter `pids` has 64 bits.  A process
is in `paused` while it sleeps in `pause`, on the address of its set of received
signals. -/
structure Table where
  slots : Proc → Slot
  pids : ℕ
  idxPids : Proc → ℕ
  received : Proc → ℕ
  paused : Proc → Bool

def boot : Table where
  slots := fun _ => .unused
  pids := 0
  idxPids := fun _ => nproc
  received := fun _ => 0
  paused := fun _ => false

/-- How `Signals::kill` panics. -/
inductive Halt
  | indexOutOfBounds
  | shiftOverflow
  deriving DecidableEq

/-- `Sigset::from_bits_truncate`: `Chld` is the only signal. -/
def fromBitsTruncate (bits : ℕ) : ℕ := bits &&& 1

/-- The signal is added to the set of a slot, and whoever sleeps on the address
of that set is woken. -/
def deliver (table : Table) (id : Proc) (signum : ℕ) : Table :=
  { table with
    received := update table.received id (table.received id ||| fromBitsTruncate (1 <<< signum))
    paused := update table.paused id false }

def kill (table : Table) (signum pid : ℕ) : Except Halt (Except String Table) :=
  match (List.finRange nproc).find? fun slot => table.idxPids slot = pid with
  | none => .ok (.error "No Such Process")
  | some slot =>
    -- the value found is used as the index
    if hid : table.idxPids slot < nproc then
      if 64 ≤ signum then .error .shiftOverflow
      else .ok (.ok (deliver table ⟨table.idxPids slot, hid⟩ signum))
    else .error .indexOutOfBounds

/-- The calls, and a wake-up of a process in `pause` for another reason. -/
inductive Action
  | allocProc
  | exit (path : Path) (proc : Proc)
  | free (proc : Proc)
  | pause (proc : Proc)
  | wake (proc : Proc)
  | kill (signum pid : ℕ)
  deriving DecidableEq

def Slot.pid : Slot → Option ℕ
  | .live pid => some pid
  | .unused | .zombie => none

def Table.runs (table : Table) (proc : Proc) : Bool :=
  (table.slots proc).pid.isSome && !table.paused proc

/-- `alloc_proc`: the id is taken even if there is no free slot. -/
def allocProc (table : Table) : Table :=
  match (List.finRange nproc).find? fun slot => table.slots slot = .unused with
  | none => { table with pids := (table.pids + 1) % 2 ^ 64 }
  | some slot =>
    { table with
      slots := update table.slots slot (.live table.pids)
      pids := (table.pids + 1) % 2 ^ 64
      idxPids := update table.idxPids slot table.pids }

def step (table : Table) : Action → Option Table
  | .allocProc => some (allocProc table)
  | .exit path proc =>
    if table.runs proc then
      some { table with
        slots := update table.slots proc .zombie
        idxPids := match path with
          | .manager => update table.idxPids proc nproc
          -- `process::exit` leaves the entry as it is
          | .killed => table.idxPids }
    else none
  | .free proc =>
    if table.slots proc = .zombie then
      some { table with slots := update table.slots proc .unused }
    else none
  | .pause proc =>
    if table.runs proc then
      some { table with paused := update table.paused proc true }
    else none
  | .wake proc => some { table with paused := update table.paused proc false }
  | .kill signum pid =>
    match kill table signum pid with
    | .ok (.ok next) => some next
    | .ok (.error _) => some table
    | .error _ => none

/-! ## What the entries mean -/

/-- The ids left behind in `idx_pids`: that of the last process to leave the
slot, if it left by `process::exit`. -/
def remember (left : Proc → Option ℕ) : Table × Action → Proc → Option ℕ
  | (_, .exit .manager proc) => update left proc none
  | (table, .exit .killed proc) => update left proc (table.slots proc).pid
  | _ => left

def leftBehind (record : List (Table × Action)) : Proc → Option ℕ :=
  record.foldl remember fun _ => none

/-- The entry of `idx_pids` for a slot. -/
def Slot.entry (left : Option ℕ) : Slot → ℕ
  | .live pid => pid
  | .unused | .zombie => left.getD nproc

/-- The entries are those of the slots, ids are given once, and `Chld` is all
that is received. -/
structure Kept (left : Proc → Option ℕ) (table : Table) : Prop where
  entry_eq : ∀ slot, table.idxPids slot = (table.slots slot).entry (left slot)
  below : ∀ slot pid, table.slots slot = .live pid → pid < table.pids
  distinct : ∀ first second pid, table.slots first = .live pid →
    table.slots second = .live pid → first = second
  received_le : ∀ slot, table.received slot ≤ 1

/-- The counter does not come back to zero in this step. -/
def Roomy (table : Table) (action : Action) : Prop :=
  action = .allocProc → table.pids + 1 < 2 ^ 64

variable {table next : Table} {left : Proc → Option ℕ}

/-- A slot is filled, with an id not given before if with a process. -/
theorem Kept.place (hkept : Kept left table) {proc : Proc} {slot : Slot} {pids : ℕ}
    {left' : Proc → Option ℕ} {idxPids : Proc → ℕ} (hpids : table.pids ≤ pids)
    (hslot : ∀ pid, slot = .live pid → table.pids ≤ pid ∧ pid < pids)
    (hself : idxPids proc = slot.entry (left' proc)) (hothers : ∀ other ≠ proc,
      idxPids other = table.idxPids other ∧ left' other = left other) :
    Kept left' { table with
      slots := update table.slots proc slot
      pids := pids
      idxPids := idxPids } := by
  have hlive : ∀ other pid, update table.slots proc slot other = .live pid →
      other = proc ∧ table.pids ≤ pid ∧ pid < pids ∨ table.slots other = .live pid := by
    intro other pid hother
    by_cases hsame : other = proc
    · rw [hsame, update_self] at hother
      exact Or.inl ⟨hsame, hslot pid hother⟩
    · rw [update_of_ne hsame] at hother
      exact Or.inr hother
  refine ⟨?_, ?_, ?_, hkept.received_le⟩
  · intro other
    by_cases hsame : other = proc
    · subst hsame
      change idxPids other = Slot.entry _ (update table.slots other slot other)
      rw [update_self, hself]
    · obtain ⟨hidx, hleft⟩ := hothers other hsame
      change idxPids other = Slot.entry _ (update table.slots proc slot other)
      rw [update_of_ne hsame, hidx, hleft, hkept.entry_eq]
  · intro other pid hother
    obtain ⟨-, -, hlt⟩ | hold := hlive other pid hother
    · exact hlt
    · exact (hkept.below other pid hold).trans_le hpids
  · intro first second pid hfirst hsecond
    obtain ⟨rfl, hf, -⟩ | hf := hlive first pid hfirst <;>
      obtain ⟨rfl, hs, -⟩ | hs := hlive second pid hsecond
    · rfl
    · exact absurd (hkept.below second pid hs) (Nat.not_lt.mpr hf)
    · exact absurd (hkept.below first pid hf) (Nat.not_lt.mpr hs)
    · exact hkept.distinct first second pid hf hs

theorem or_le_one {received : ℕ} (hreceived : received ≤ 1) (bits : ℕ) :
    received ||| fromBitsTruncate bits ≤ 1 :=
  Nat.le_of_lt_succ (Nat.or_lt_two_pow (show received < 2 ^ 1 by omega)
    (Nat.and_lt_two_pow bits (show 1 < 2 ^ 1 by decide)))

theorem Kept.deliver (hkept : Kept left table) (id : Proc) (signum : ℕ) :
    Kept left (deliver table id signum) :=
  ⟨hkept.entry_eq, hkept.below, hkept.distinct,
    (forall_update_iff _ fun _ received => received ≤ 1).mpr
      ⟨or_le_one (hkept.received_le _) _, fun slot _ => hkept.received_le slot⟩⟩

/-- `kill` without the search. -/
theorem kill_eq (table : Table) (signum pid : ℕ) :
    kill table signum pid =
      if ∃ slot, table.idxPids slot = pid then
        if hid : pid < nproc then
          if 64 ≤ signum then .error .shiftOverflow
          else .ok (.ok (deliver table ⟨pid, hid⟩ signum))
        else .error .indexOutOfBounds
      else .ok (.error "No Such Process") := by
  rw [kill]
  split
  · next hfind =>
      rw [if_neg]
      rintro ⟨slot, hentry⟩
      have hmiss := List.find?_eq_none.mp hfind slot (List.mem_finRange _)
      exact absurd hentry (by simpa using hmiss)
  · next slot hfind =>
      obtain rfl : table.idxPids slot = pid := by simpa using List.find?_some hfind
      rw [if_pos ⟨slot, rfl⟩]

theorem Slot.eq_live {slot : Slot} {pid : ℕ} (hpid : slot.pid = some pid) : slot = .live pid := by
  cases slot with
  | live other => exact congrArg Slot.live (Option.some.inj hpid)
  | unused | zombie => cases hpid

theorem Table.live_of_runs {proc : Proc} (hruns : table.runs proc = true) :
    ∃ pid, table.slots proc = .live pid := by
  obtain ⟨pid, hpid⟩ := Option.isSome_iff_exists.mp (Bool.and_eq_true_iff.mp hruns).1
  exact ⟨pid, Slot.eq_live hpid⟩

/-- A step of `kill` leaves everything but the signals as it is. -/
theorem deliver_of_step {signum pid : ℕ} (hstep : step table (.kill signum pid) = some next) :
    next = table ∨ ∃ id, next = deliver table id signum := by
  simp only [step, kill_eq] at hstep
  split at hstep
  · next hkill =>
      cases hstep
      split_ifs at hkill
      all_goals cases hkill
      exact Or.inr ⟨_, rfl⟩
  · cases hstep
    exact Or.inl rfl
  · cases hstep

theorem Kept.step (hkept : Kept left table) {action : Action} (hroomy : Roomy table action)
    (hstep : step table action = some next) : Kept (remember left (table, action)) next := by
  have hsame : ∀ {proc : Proc} (other : Proc), other ≠ proc →
      table.idxPids other = table.idxPids other ∧ left other = left other :=
    fun _ _ => ⟨rfl, rfl⟩
  cases action with
  | allocProc =>
    have hpids := Nat.mod_eq_of_lt (hroomy rfl)
    cases hstep
    rw [allocProc, hpids]
    split
    · exact ⟨hkept.entry_eq, fun slot pid hlive =>
        (hkept.below slot pid hlive).trans (Nat.lt_succ_self _), hkept.distinct, hkept.received_le⟩
    · refine hkept.place (Nat.le_succ _) ?_ (update_self ..) fun _ hne => ⟨update_of_ne hne .., rfl⟩
      rintro pid ⟨⟩
      exact ⟨Nat.le_refl _, Nat.lt_succ_self _⟩
  | exit path proc =>
    obtain ⟨hruns, ⟨⟩⟩ := Option.ite_none_right_eq_some.mp hstep
    cases path with
    | manager =>
      refine hkept.place (Nat.le_refl _) (fun _ hlive => nomatch hlive) ?_
        fun _ hne => ⟨update_of_ne hne .., update_of_ne hne ..⟩
      change update table.idxPids proc nproc proc = (update left proc none proc).getD nproc
      rw [update_self, update_self]
      rfl
    | killed =>
      obtain ⟨pid, hlive⟩ := Table.live_of_runs hruns
      refine hkept.place (Nat.le_refl _) (fun _ hlive => nomatch hlive) ?_
        fun _ hne => ⟨rfl, update_of_ne hne ..⟩
      change table.idxPids proc = (update left proc (table.slots proc).pid proc).getD nproc
      rw [hkept.entry_eq, update_self, hlive]
      rfl
  | free proc =>
    obtain ⟨hzombie, ⟨⟩⟩ := Option.ite_none_right_eq_some.mp hstep
    refine hkept.place (Nat.le_refl _) (fun _ hlive => nomatch hlive) ?_ hsame
    rw [hkept.entry_eq, hzombie]
    rfl
  | pause proc =>
    obtain ⟨-, ⟨⟩⟩ := Option.ite_none_right_eq_some.mp hstep
    exact ⟨hkept.entry_eq, hkept.below, hkept.distinct, hkept.received_le⟩
  | wake proc =>
    cases hstep
    exact ⟨hkept.entry_eq, hkept.below, hkept.distinct, hkept.received_le⟩
  | kill signum pid =>
    obtain rfl | ⟨id, rfl⟩ := deliver_of_step hstep
    · exact hkept
    · exact hkept.deliver id signum

theorem kept_boot : Kept (fun _ => none) boot :=
  ⟨fun _ => rfl, nofun, nofun, fun _ => Nat.zero_le 1⟩

/-- The calls of `alloc_proc` in a run. -/
def allocations (record : List (Table × Action)) : ℕ :=
  (record.map Prod.snd).count .allocProc

theorem step_pids {action : Action} (hroomy : Roomy table action)
    (hstep : step table action = some next) :
    next.pids = table.pids + if action = .allocProc then 1 else 0 := by
  cases action with
  | allocProc =>
    cases hstep
    rw [if_pos rfl, allocProc, Nat.mod_eq_of_lt (hroomy rfl)]
    split <;> rfl
  | exit path proc | free proc | pause proc =>
    obtain ⟨-, ⟨⟩⟩ := Option.ite_none_right_eq_some.mp hstep
    rfl
  | wake proc =>
    cases hstep
    rfl
  | kill signum pid =>
    obtain rfl | ⟨id, rfl⟩ := deliver_of_step hstep <;> rfl

/-- With few enough calls of `alloc_proc` the counter never wraps. -/
theorem run_roomy {first last : Table} {record : List (Table × Action)}
    (hrun : Run step first record last) (hids : first.pids + allocations record < 2 ^ 64) :
    ∀ entry ∈ record, Roomy entry.1 entry.2 := by
  induction hrun with
  | done => nofun
  | @step first next last action record hstep _ ih =>
    rw [allocations, List.map_cons, List.count_cons] at hids
    have hroomy : Roomy first action := by
      rintro rfl
      rw [if_pos (beq_self_eq_true _)] at hids
      omega
    refine List.forall_mem_cons.mpr ⟨hroomy, ih ?_⟩
    rw [step_pids hroomy hstep, allocations]
    simp only [beq_iff_eq] at hids
    omega

theorem Kept.run {last : Table} {record : List (Table × Action)}
    (hrun : Run Signals.step boot record last) (hids : allocations record < 2 ^ 64) :
    Kept (leftBehind record) last := by
  refine hrun.remembers ?_ kept_boot (run_roomy hrun (by simpa [boot] using hids))
  intro left table action next hkept hroomy hstep
  exact hkept.step hroomy hstep

/-! ## The right process -/

/-- The signal is received by the process in `slot` and by nobody else, and the
process is not in `pause` any more. -/
def Reaches (table next : Table) (signum : ℕ) (slot : Proc) : Prop :=
  next.received = update table.received slot
      (table.received slot ||| 1 <<< signum) ∧ next.paused slot = false

/-- No free slot matches the id, and the call returns `Ok` if a process has it,
whom the signal reaches, and `Err` otherwise. -/
def Right (table : Table) (signum pid : ℕ) : Prop :=
  (∀ slot, table.idxPids slot = pid → table.slots slot = .live pid) ∧
  match kill table signum pid with
  | .ok (.ok next) => ∃ slot, table.slots slot = .live pid ∧ Reaches table next signum slot
  | .ok (.error _) => ∀ slot, table.slots slot ≠ .live pid
  | .error _ => False

/-- Nobody is in the slot, and the last process there had the id and left by
`process::exit`. -/
def Stray (record : List (Table × Action)) (table : Table) (slot : Proc) (pid : ℕ) : Prop :=
  (table.slots slot).pid = none ∧ leftBehind record slot = some pid

/-- The signal is `Chld` and the process with the id, if there is one, is in the
slot of that number; or the slot of that number and the one of the process have
received the signal already and there is nobody to wake.  Nobody left a free
slot by `process::exit` with that id.  If the id is `NPROC`, each slot has a
process or was left by `process::exit`. -/
def Addressed (record : List (Table × Action)) (table : Table) (signum pid : ℕ) : Prop :=
  (∀ slot, table.slots slot = .live pid → signum = 0 ∧ ∃ hid : pid < nproc,
    slot = ⟨pid, hid⟩ ∨ (table.received slot = 1 ∧
      table.received ⟨pid, hid⟩ = 1 ∧ table.paused slot = false)) ∧
  (∀ slot, ¬Stray record table slot pid) ∧
  (pid = nproc → ∀ slot, ∃ other, table.slots slot = .live other ∨ Stray record table slot other)

/-- When all entries with an id are those of processes. -/
theorem live_iff {record : List (Table × Action)} (hkept : Kept (leftBehind record) table)
    (pid : ℕ) : (∀ slot, table.idxPids slot = pid → table.slots slot = .live pid) ↔
      (∀ slot, ¬Stray record table slot pid) ∧ (pid = nproc → ∀ slot, ∃ other,
        table.slots slot = .live other ∨ Stray record table slot other) := by
  have hfree : ∀ slot, (table.slots slot).pid = none →
      table.idxPids slot = (leftBehind record slot).getD nproc := by
    intro slot hnone
    rw [hkept.entry_eq]
    cases hslot : table.slots slot with
    | live other => cases (congrArg Slot.pid hslot).symm.trans hnone
    | unused | zombie => rfl
  constructor
  · intro hlive
    refine ⟨fun slot ⟨hnone, hleft⟩ => ?_, fun hpid slot => ?_⟩
    · have hslot := hlive slot (by rw [hfree slot hnone, hleft]; rfl)
      rw [hslot] at hnone
      cases hnone
    · cases hslot : (table.slots slot).pid with
      | some other => exact ⟨other, .inl (Slot.eq_live hslot)⟩
      | none =>
        cases hleft : leftBehind record slot with
        | some other => exact ⟨other, .inr ⟨hslot, hleft⟩⟩
        | none =>
          have hmatch := hlive slot (by rw [hfree slot hslot, hleft, hpid]; rfl)
          rw [hmatch] at hslot
          cases hslot
  · rintro ⟨hstray, hfull⟩ slot hentry
    cases hslot : (table.slots slot).pid with
    | some other =>
      have hlive := Slot.eq_live hslot
      rw [hkept.entry_eq, hlive] at hentry
      rw [hlive, ← hentry]
      rfl
    | none =>
      rw [hfree slot hslot] at hentry
      cases hleft : leftBehind record slot with
      | some other =>
        rw [hleft] at hentry
        exact absurd ⟨hslot, hleft.trans (congrArg some hentry)⟩ (hstray slot)
      | none =>
        rw [hleft] at hentry
        obtain ⟨other, hother | ⟨-, hother⟩⟩ := hfull hentry.symm slot
        · rw [hother] at hslot
          cases hslot
        · cases hleft.symm.trans hother

/-- Who is reached by a signal that is delivered to slot `id`. -/
theorem reaches_iff (hkept : Kept left table) {signum : ℕ} {slot id : Proc} :
    Reaches table (deliver table id signum) signum slot ↔ signum = 0 ∧
      (slot = id ∨ (table.received slot = 1 ∧ table.received id = 1 ∧
        table.paused slot = false)) := by
  have hle := hkept.received_le
  simp only [Reaches, deliver]
  match signum with
  | signum + 1 =>
    refine iff_of_false (fun hreaches => ?_) (by simp)
    have hslot := congrFun hreaches.1 slot
    have hsmall : update table.received id _ slot ≤ 1 :=
      (hkept.deliver id (signum + 1)).received_le slot
    have hlarge : 1 <<< (signum + 1) ≤ table.received slot ||| 1 <<< (signum + 1) := Nat.right_le_or
    rw [hslot, update_self] at hsmall
    rw [Nat.one_shiftLeft, Nat.pow_succ] at *
    have hpos := Nat.two_pow_pos signum
    omega
  | 0 =>
    have hbit : ∀ received ≤ 1, received ||| 1 = 1 := by decide
    have hmask : fromBitsTruncate (1 <<< 0) = 1 := rfl
    rw [hmask, Nat.shiftLeft_zero, hbit _ (hle _), hbit _ (hle _)]
    by_cases hslot : slot = id
    · simp [hslot]
    · constructor
      · rintro ⟨hreceived, hpaused⟩
        have hself := congrFun hreceived slot
        have hother := congrFun hreceived id
        rw [update_self, update_of_ne hslot] at hself
        rw [update_self, update_of_ne (Ne.symm hslot)] at hother
        rw [update_of_ne hslot] at hpaused
        exact ⟨rfl, Or.inr ⟨hself, hother.symm, hpaused⟩⟩
      · rintro ⟨-, hsame | ⟨hself, hother, hpaused⟩⟩
        · exact absurd hsame hslot
        · refine ⟨?_, by rw [update_of_ne hslot, hpaused]⟩
          rw [← hother, update_eq_self, hother, ← hself, update_eq_self]

theorem right_iff {record : List (Table × Action)} (hkept : Kept (leftBehind record) table)
    (signum pid : ℕ) : Right table signum pid ↔ Addressed record table signum pid := by
  rw [Right, Addressed, ← live_iff hkept pid, kill_eq, and_comm]
  refine and_congr_left fun hlive => ?_
  by_cases hmatch : ∃ slot, table.idxPids slot = pid
  · obtain ⟨slot, hentry⟩ := hmatch
    have hslot := hlive slot hentry
    have hone : ∀ other, table.slots other = .live pid → other = slot := fun other hother =>
      hkept.distinct other slot pid hother hslot
    rw [if_pos ⟨slot, hentry⟩]
    by_cases hid : pid < nproc
    · rw [dif_pos hid]
      by_cases hsignum : 64 ≤ signum
      · rw [if_pos hsignum]
        refine iff_of_false not_false fun haddressed => ?_
        obtain ⟨hzero, -⟩ := haddressed slot hslot
        omega
      · rw [if_neg hsignum]
        constructor
        · rintro ⟨other, hother, hreaches⟩ third hthird
          obtain ⟨hzero, hplace⟩ := (reaches_iff hkept).mp hreaches
          rw [hone third hthird, ← hone other hother]
          exact ⟨hzero, hid, hplace⟩
        · intro haddressed
          obtain ⟨hzero, _, hplace⟩ := haddressed slot hslot
          exact ⟨slot, hslot, (reaches_iff hkept).mpr ⟨hzero, hplace⟩⟩
    · rw [dif_neg hid]
      refine iff_of_false not_false fun haddressed => ?_
      obtain ⟨-, hid', -⟩ := haddressed slot hslot
      exact hid hid'
  · have hdead : ∀ slot, table.slots slot ≠ .live pid := fun slot hslot =>
      hmatch ⟨slot, by rw [hkept.entry_eq, hslot]; rfl⟩
    rw [if_neg hmatch]
    exact iff_of_true hdead fun slot hslot => absurd hslot (hdead slot)

/-- After every history in which the counter of ids does not wrap, a signal
reaches the right process exactly when it is addressed to it by its slot, or
makes no difference, and no free slot shows the id. -/
theorem run_right_iff {last : Table} {record : List (Table × Action)}
    (hrun : Run Signals.step boot record last) (hids : allocations record < 2 ^ 64)
    (signum pid : ℕ) : Right last signum pid ↔ Addressed record last signum pid :=
  right_iff (Kept.run hrun hids) signum pid

def pausedTable : Table :=
  (step (allocProc boot) (.pause 0)).get (by decide +kernel)

theorem run_right_iff_pause :
    Run Signals.step boot [(boot, .allocProc), (allocProc boot, .pause 0)] pausedTable ∧
      pausedTable.paused 0 = true ∧ Right pausedTable 0 0 := by
  have hrun : Run Signals.step boot [(boot, .allocProc), (allocProc boot, .pause 0)] pausedTable :=
    Run.step rfl (Run.step (Option.some_get _).symm (Run.done _))
  have hslots : ∀ slot, pausedTable.slots slot = .live 0 → slot = 0 := by decide +kernel
  refine ⟨hrun, by decide +kernel, (run_right_iff hrun (by decide) 0 0).mpr ⟨?_, ?_, ?_⟩⟩
  · intro slot hslot
    exact ⟨rfl, by decide, Or.inl (hslots slot hslot)⟩
  · rintro slot ⟨-, hleft⟩
    cases hleft
  · intro hzero
    cases hzero

/-- Two processes are made; the second exits, and a third gets its slot. -/
def reuseActions : List Action :=
  [.allocProc, .allocProc, .exit .manager 1, .free 1, .allocProc]

/-- The process with id 2 is in slot 1, and a signal for it goes to slot 2. -/
theorem not_run_right :
    ¬∀ (last : Table) (record : List (Table × Action)), Run Signals.step boot record last →
      allocations record < 2 ^ 64 → ∀ signum pid, Right last signum pid := by
  intro hall
  have hreused : (reuseActions.foldlM Signals.step boot).any (fun last =>
      last.slots 1 = .live 2 ∧ last.received 1 = 0) = true := by decide +kernel
  obtain ⟨record, last, hrun, hactions, hslot, hreceived⟩ := Run.of_any hreused
  have hids : allocations record < 2 ^ 64 := by
    rw [allocations, hactions]
    decide
  have haddressed := (right_iff (Kept.run hrun hids) 0 2).mp (hall _ _ hrun hids 0 2)
  obtain ⟨-, _, hsame | ⟨hone, -⟩⟩ := haddressed.1 1 hslot
  · cases hsame
  · cases hreceived.symm.trans hone

/-! ## Process ids -/

section Ids

variable {first last : Table} {record : List (Table × Action)} {pid : ℕ} {slot other : Proc}

theorem live_of_update {value : Slot} (hvalue : value ≠ .live pid)
    (hlive : update table.slots other value slot = .live pid) : table.slots slot = .live pid := by
  by_cases hslot : slot = other
  · rw [hslot, update_self] at hlive
    exact absurd hlive hvalue
  · rwa [update_of_ne hslot] at hlive

/-- A step gives no id that was given before. -/
theorem step_live {action : Action} (hroomy : Roomy table action)
    (hstep : step table action = some next) (hpid : pid < table.pids) :
    pid < next.pids ∧ (next.slots slot = .live pid → table.slots slot = .live pid) := by
  refine ⟨by rw [step_pids hroomy hstep]; omega, ?_⟩
  cases action with
  | allocProc =>
    cases hstep
    rw [allocProc]
    split
    · exact id
    · exact live_of_update fun hsame => hpid.ne' (Slot.live.inj hsame)
  | exit path proc | free proc =>
    obtain ⟨-, ⟨⟩⟩ := Option.ite_none_right_eq_some.mp hstep
    exact live_of_update (by simp)
  | pause proc =>
    obtain ⟨-, ⟨⟩⟩ := Option.ite_none_right_eq_some.mp hstep
    exact id
  | wake proc =>
    cases hstep
    exact id
  | kill signum target =>
    obtain rfl | ⟨id, rfl⟩ := deliver_of_step hstep <;> exact fun hlive => hlive

theorem run_live (hrun : Run step first record last)
    (hroomy : ∀ entry ∈ record, Roomy entry.1 entry.2) (hpid : pid < first.pids)
    (hlast : last.slots slot = .live pid) :
    first.slots slot = .live pid ∧ ∀ entry ∈ record, entry.1.slots slot = .live pid := by
  induction hrun with
  | done => exact ⟨hlast, nofun⟩
  | step hstep _ ih =>
    obtain ⟨hhead, htail⟩ := List.forall_mem_cons.mp hroomy
    obtain ⟨hnext, hback⟩ := step_live hhead hstep hpid
    obtain ⟨hlive, hrecord⟩ := ih htail hnext hlast
    exact ⟨hback hlive, List.forall_mem_cons.mpr ⟨hback hlive, hrecord⟩⟩

/-- An id names one process, as long as the counter of ids has not wrapped:
found at two times, it is that of the same slot, and the process has been there
all the time in between. -/
theorem run_pid_once {before : List (Table × Action)} (hbefore : Run step boot before first)
    (hrun : Run step first record last) (hids : allocations (before ++ record) < 2 ^ 64)
    (hfirst : first.slots slot = .live pid) (hlast : last.slots other = .live pid) :
    other = slot ∧ ∀ entry ∈ record, entry.1.slots slot = .live pid := by
  have hroomy := run_roomy (hbefore.append hrun) (by simpa [boot] using hids)
  have hkept : Kept (leftBehind before) first := Kept.run hbefore (by
    rw [allocations, List.map_append, List.count_append] at hids
    exact Nat.lt_of_le_of_lt (Nat.le_add_right ..) hids)
  obtain ⟨hlive, hrecord⟩ := run_live hrun
    (fun entry hentry => hroomy entry (List.mem_append_right _ hentry))
    (hkept.below slot pid hfirst) hlast
  obtain rfl := hkept.distinct slot other pid hfirst hlive
  exact ⟨rfl, hrecord⟩

theorem run_pid_once_pause : ∃ first last record,
    Run step boot [(boot, .allocProc)] first ∧ Run step first record last ∧
      record.map Prod.snd = [.allocProc, .exit .killed 1, .free 1, .allocProc, .pause 0] ∧
      ∀ entry ∈ record, entry.1.slots 0 = .live 0 := by
  have hsome : ([Action.allocProc, .exit .killed 1, .free 1, .allocProc, .pause 0].foldlM step
      (allocProc boot)).any (fun last => last.slots 0 = .live 0) = true := by decide +kernel
  obtain ⟨last, hfold, hlast⟩ := (Option.any_eq_true _ _).mp hsome
  obtain ⟨record, hrun, hactions⟩ := Run.of_foldlM hfold
  have hbefore : Run step boot [(boot, .allocProc)] (allocProc boot) :=
    Run.step rfl (Run.done _)
  have hids : allocations ([(boot, .allocProc)] ++ record) < 2 ^ 64 := by
    rw [allocations, List.map_append, hactions]
    decide
  exact ⟨_, last, record, hbefore, hrun, hactions,
    (run_pid_once hbefore hrun hids (by decide +kernel) (of_decide_eq_true hlast)).2⟩

end Ids

end RxOs.Signals
