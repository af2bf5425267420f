import RxOs.Driver.ConsoleInput
import RxOs.Core.Simulation

/-!
# The console is a line editor

What the console is for: a queue of committed bytes and a line that is still
being edited.  The ring with its three indices shows such an editor in every
state that the console can reach, and both give the same answers.
-/

namespace RxOs.LineEditor

open Function Transition Simulation WrappingRing ConsoleInput

/-! ## The editor -/

/-- The queue and the pending line, with all bytes that were ever committed and
all that were taken from the queue. -/
structure Editor where
  queue : List UInt8
  pending : List UInt8
  committed : List UInt8
  taken : List UInt8

def Editor.new : Editor := ⟨[], [], [], []⟩

def Editor.commit (editor : Editor) (line : List UInt8) : Editor :=
  { editor with
    queue := editor.queue ++ line
    pending := []
    committed := editor.committed ++ line }

def Editor.advance (editor : Editor) (c : UInt8) (rest : List UInt8) : Editor :=
  { editor with
    queue := rest
    taken := editor.taken ++ [c] }

def Editor.intr (c : UInt8) (editor : Editor) : Editor × List UInt8 × Bool :=
  if c = 0 ∨ c = ctrlPrintProcess then (editor, [], false)
  else if c = ctrlBsLine then
    ({ editor with pending := [] },
      (List.replicate editor.pending.length (putc ctrlBs)).flatten, false)
  else if c = ctrlBs ∨ c = ctrlDel then
    ({ editor with pending := editor.pending.dropLast },
      if editor.pending = [] then [] else putc ctrlBs, false)
  else if editor.queue.length + editor.pending.length < inputBuf then
    let c := if c = ctrlCr then ctrlLf else c
    let line := editor.pending ++ [c]
    if c = ctrlLf ∨ c = ctrlEot ∨ editor.queue.length + line.length = inputBuf then
      (editor.commit line, putc c, true)
    else ({ editor with pending := line }, putc c, false)
  else (editor, [], false)

/-- A reader takes bytes up to and with a line feed; an end of transmission
ends the request, and is left for the next one if there are bytes before it. -/
def Editor.serve (size : ℕ) (killed : Bool) :
    ℕ → Editor → Editor × List UInt8 × Outcome
  | 0, editor => (editor, [], .returned (some size))
  | left + 1, editor =>
    match editor.queue with
    | [] => (editor, [], if killed then .returned none else .asleep (left + 1))
    | c :: rest =>
      if c = ctrlEot then
        (if left + 1 < size then editor else editor.advance c rest,
          [], .returned (some (size - (left + 1))))
      else if c = ctrlLf then
        (editor.advance c rest, [c], .returned (some (size - left)))
      else
        let later := Editor.serve size killed left (editor.advance c rest)
        (later.1, c :: later.2.1, later.2.2)

def editor : Terminal Editor := ⟨Editor.intr, Editor.serve⟩

/-! ## Nothing is lost or delivered twice -/

/-- The committed bytes are those taken and those in the queue. -/
def Conserved (editor : Editor) : Prop :=
  editor.committed = editor.taken ++ editor.queue

theorem Conserved.intr {editor : Editor} (hconserved : Conserved editor)
    (c : UInt8) : Conserved (editor.intr c).1 ∧ (editor.intr c).1.taken = editor.taken := by
  have hcommit : ∀ line, Conserved (editor.commit line) := by
    intro line
    change editor.committed ++ line = editor.taken ++ (editor.queue ++ line)
    rw [hconserved, List.append_assoc]
  unfold Editor.intr
  split
  · exact ⟨hconserved, rfl⟩
  · split
    · exact ⟨hconserved, rfl⟩
    · split
      · exact ⟨hconserved, rfl⟩
      · split
        · dsimp only
          generalize (if c = ctrlCr then ctrlLf else c) = stored
          split
          · exact ⟨hcommit _, rfl⟩
          · exact ⟨hconserved, rfl⟩
        · exact ⟨hconserved, rfl⟩

theorem Conserved.advance {editor : Editor} {c : UInt8} {rest : List UInt8}
    (hconserved : Conserved editor) (hqueue : editor.queue = c :: rest) :
    Conserved (editor.advance c rest) := by
  change editor.committed = editor.taken ++ [c] ++ rest
  rw [hconserved, hqueue, List.append_assoc]
  rfl

/-- The bytes that a reader gets are the ones that leave the queue, except for
the marks of the end of transmission. -/
theorem Conserved.serve {editor : Editor} (hconserved : Conserved editor)
    (size : ℕ) (killed : Bool) (left : ℕ) :
    Conserved (editor.serve size killed left).1 ∧
      (editor.serve size killed left).1.taken.filter (· ≠ ctrlEot) =
        editor.taken.filter (· ≠ ctrlEot) ++ (editor.serve size killed left).2.1 := by
  induction left generalizing editor with
  | zero => exact ⟨hconserved, (List.append_nil _).symm⟩
  | succ left ih =>
    rw [Editor.serve]
    split
    · exact ⟨hconserved, (List.append_nil _).symm⟩
    · next c rest hqueue =>
        have hadvance := hconserved.advance hqueue
        have htaken : (editor.advance c rest).taken = editor.taken ++ [c] :=
          rfl
        split
        · next heot =>
            rw [List.append_nil]
            split
            · exact ⟨hconserved, rfl⟩
            · refine ⟨hadvance, ?_⟩
              rw [htaken, List.filter_append]
              simp [heot]
        · next heot =>
            split
            · refine ⟨hadvance, ?_⟩
              rw [htaken, List.filter_append]
              simp [heot]
            · obtain ⟨hlater, hbytes⟩ := ih hadvance
              refine ⟨hlater, ?_⟩
              rw [hbytes, htaken, List.filter_append]
              simp [heot]

/-! ## What the ring shows -/

/-- The ring holds the queue and behind it the pending line, which has no line
feed; the indices stand where the parts end. -/
structure Shows (console : Console) (editor : Editor) : Prop where
  write : console.writeIndex = console.readIndex + BitVec.ofNat 64 editor.queue.length
  edit : console.editIndex = console.writeIndex + BitVec.ofNat 64 editor.pending.length
  room : editor.queue.length + editor.pending.length ≤ inputBuf
  stored : Stored inputBuf console.buf console.readIndex (editor.queue ++ editor.pending)
  line : ctrlLf ∉ editor.pending

theorem shows_new : Shows Console.new Editor.new :=
  ⟨rfl, rfl, by decide, stored_nil, by decide⟩

/-- The read index comes first, then the write index, then the edit index, and
the edit index is at most `INPUT_BUF` ahead. -/
def Ordered (console : Console) : Prop :=
  (console.writeIndex - console.readIndex).toNat ≤ (console.editIndex - console.readIndex).toNat ∧
    (console.editIndex - console.readIndex).toNat ≤ inputBuf

section Shows

variable {console : Console} {editor : Editor}

theorem inputBuf_dvd : inputBuf ∣ 2 ^ 64 := by decide

theorem small_of_le {count : ℕ} (hcount : count ≤ inputBuf) : count < 2 ^ 64 := by
  change count ≤ 128 at hcount
  omega

theorem Shows.edit_read (hshows : Shows console editor) :
    console.editIndex = console.readIndex +
      BitVec.ofNat 64 (editor.queue.length + editor.pending.length) := by
  rw [hshows.edit, hshows.write, add_ofNat]

theorem Shows.edit_sub (hshows : Shows console editor) :
    (console.editIndex - console.readIndex).toNat =
      editor.queue.length + editor.pending.length := by
  rw [hshows.edit_read, toNat_add_sub (small_of_le hshows.room)]

theorem Shows.ordered (hshows : Shows console editor) : Ordered console := by
  have hroom := hshows.room
  have hqueue : editor.queue.length ≤ inputBuf := by omega
  rw [Ordered, hshows.edit_sub, hshows.write, toNat_add_sub (small_of_le hqueue)]
  omega

theorem Shows.read_eq_write (hshows : Shows console editor) :
    console.readIndex = console.writeIndex ↔ editor.queue = [] := by
  have hroom := hshows.room
  rw [hshows.write, add_eq_self_iff (small_of_le (by omega)), List.length_eq_zero_iff]

theorem Shows.edit_eq_write (hshows : Shows console editor) :
    console.editIndex = console.writeIndex ↔ editor.pending = [] := by
  have hroom := hshows.room
  rw [hshows.edit, eq_comm, add_eq_self_iff (small_of_le (by omega)), List.length_eq_zero_iff]

/-- The last byte of the line is erased. -/
theorem Shows.erase {line : List UInt8} {c : UInt8}
    (hshows : Shows console editor) (hpending : editor.pending = line ++ [c]) :
    Shows { console with editIndex := console.editIndex - 1 } { editor with pending := line } ∧
      console.buf (cell inputBuf (console.editIndex - 1)) = c := by
  have hstored := hshows.stored
  have hroom := hshows.room
  have hline := hshows.line
  rw [hpending] at hroom hline hstored
  rw [List.length_append, List.length_singleton] at hroom
  rw [← List.append_assoc] at hstored
  have hedit : console.editIndex - 1 = console.readIndex +
      BitVec.ofNat 64 (editor.queue ++ line).length := by
    rw [hshows.edit_read, hpending, List.length_append, List.length_singleton,
      ← Nat.add_assoc, add_ofNat_succ_sub, List.length_append]
  constructor
  · refine ⟨hshows.write, ?_, ?_, hstored.of_append, fun hlf => hline (List.mem_append_left _ hlf)⟩
    · change console.editIndex - 1 = console.writeIndex + BitVec.ofNat 64 line.length
      rw [hedit, hshows.write, add_ofNat, List.length_append]
    · change editor.queue.length + line.length ≤ inputBuf
      omega
  · have hlast := hstored.at inputBuf_dvd (show (editor.queue ++ line).length < _ by
        simp only [List.length_append, List.length_singleton]
        exact Nat.lt_succ_self _)
    rw [List.getElem?_concat_length, ← hedit] at hlast
    exact (Option.some.inj hlast).symm

/-- The loop erases the whole line. -/
theorem Shows.eraseLine {turns : ℕ} (hshows : Shows console editor)
    (hturns : editor.pending.length = turns) :
    Shows (eraseLine turns console).1 { editor with pending := [] } ∧ (eraseLine turns console).2 =
        (List.replicate turns (putc ctrlBs)).flatten := by
  induction turns generalizing console editor with
  | zero =>
    obtain hnil := List.length_eq_zero_iff.mp hturns
    refine ⟨?_, rfl⟩
    rwa [show { editor with pending := [] } = editor by rw [← hnil]]
  | succ turns ih =>
    obtain ⟨line, c, hpending⟩ : ∃ line c, editor.pending = line ++ [c] :=
      (List.eq_nil_or_concat' editor.pending).resolve_left (by
        rintro hnil
        rw [hnil] at hturns
        cases hturns)
    obtain ⟨herased, hbyte⟩ := hshows.erase hpending
    have hne : console.editIndex ≠ console.writeIndex := by
      rw [Ne, hshows.edit_eq_write, hpending]
      simp
    have hlf : c ≠ ctrlLf := by
      rintro rfl
      apply hshows.line
      rw [hpending]
      simp
    rw [hpending, List.length_append, List.length_singleton] at hturns
    obtain ⟨hshows', hecho⟩ := ih herased (Nat.succ.inj hturns)
    rw [ConsoleInput.eraseLine, if_pos ⟨hne, by rwa [hbyte]⟩]
    refine ⟨hshows', ?_⟩
    rw [List.replicate_succ, List.flatten_cons, ← hecho]

/-- A byte is stored behind the line. -/
theorem Shows.enter (hshows : Shows console editor)
    (hroom : editor.queue.length + editor.pending.length < inputBuf) (c : UInt8) :
    let stored : Console := { console with
      buf := update console.buf (cell inputBuf console.editIndex) c
      editIndex := console.editIndex + 1 }
    stored.editIndex = console.readIndex + BitVec.ofNat 64
        (editor.queue.length + (editor.pending ++ [c]).length) ∧
      Stored inputBuf stored.buf console.readIndex (editor.queue ++ (editor.pending ++ [c])) ∧
      (c ≠ ctrlLf → Shows stored { editor with
        pending := editor.pending ++ [c] }) ∧
      Shows { stored with writeIndex := stored.editIndex }
        (editor.commit (editor.pending ++ [c])) := by
  intro stored
  have hedit : stored.editIndex = console.readIndex + BitVec.ofNat 64
      (editor.queue.length + (editor.pending ++ [c]).length) := by
    change console.editIndex + BitVec.ofNat 64 1 = _
    rw [hshows.edit_read, add_ofNat, List.length_append, Nat.add_assoc]
    rfl
  have hroom' : editor.queue.length + (editor.pending ++ [c]).length ≤
      inputBuf := by
    rw [List.length_append, List.length_singleton]
    omega
  have hbytes : Stored inputBuf stored.buf console.readIndex
      (editor.queue ++ (editor.pending ++ [c])) := by
    rw [← List.append_assoc]
    have hpush := hshows.stored.push (by rwa [List.length_append]) c
    rwa [List.length_append, ← cell_add inputBuf_dvd, ← hshows.edit_read] at hpush
  refine ⟨hedit, hbytes, ?_, ?_⟩
  · intro hlf
    refine ⟨hshows.write, ?_, hroom', hbytes, ?_⟩
    · rw [hedit, ← add_ofNat]
      exact congrArg (· + _) hshows.write.symm
    · change ctrlLf ∉ editor.pending ++ [c]
      rw [List.mem_append, List.mem_singleton, not_or]
      exact ⟨hshows.line, hlf.symm⟩
  · refine ⟨?_, ?_, ?_, ?_, List.not_mem_nil⟩
    · change stored.editIndex = console.readIndex +
        BitVec.ofNat 64 (editor.queue ++ (editor.pending ++ [c])).length
      rw [hedit, ← List.length_append]
    · exact (BitVec.add_zero _).symm
    · change (editor.queue ++ (editor.pending ++ [c])).length + 0 ≤ inputBuf
      rwa [Nat.add_zero, List.length_append]
    · change Stored inputBuf stored.buf console.readIndex
        (editor.queue ++ (editor.pending ++ [c]) ++ [])
      rwa [List.append_nil]

/-- The interrupt handler edits as the editor does. -/
theorem Shows.intr (hshows : Shows console editor) (c : UInt8) :
    Shows (consoleIntr c console).1 (editor.intr c).1 ∧
      (consoleIntr c console).2 = (editor.intr c).2 := by
  by_cases hzero : c = 0
  · subst hzero
    exact ⟨hshows, rfl⟩
  unfold consoleIntr Editor.intr
  by_cases hprint : c = ctrlPrintProcess
  · rw [if_pos hprint, if_pos (.inr hprint)]
    exact ⟨hshows, rfl⟩
  rw [if_neg hprint, if_neg (not_or.mpr ⟨hzero, hprint⟩)]
  by_cases hbsLine : c = ctrlBsLine
  · rw [if_pos hbsLine, if_pos hbsLine]
    have hturns : (console.editIndex - console.writeIndex).toNat = editor.pending.length := by
      have hroom := hshows.room
      rw [hshows.edit, toNat_add_sub (small_of_le (by omega))]
    obtain ⟨hshows', hecho⟩ := hshows.eraseLine hturns.symm
    refine ⟨hshows', ?_⟩
    dsimp only
    rw [hecho, hturns]
  rw [if_neg hbsLine, if_neg hbsLine]
  by_cases hbs : c = ctrlBs ∨ c = ctrlDel
  · rw [if_pos hbs, if_pos hbs]
    by_cases hnil : editor.pending = []
    · rw [if_neg (not_not.mpr (hshows.edit_eq_write.mpr hnil)), if_pos hnil]
      refine ⟨?_, rfl⟩
      rwa [show { editor with pending := editor.pending.dropLast } = editor by
        rw [hnil, List.dropLast_nil, ← hnil]]
    · rw [if_pos (mt hshows.edit_eq_write.mp hnil), if_neg hnil]
      exact ⟨(hshows.erase (List.dropLast_append_getLast hnil).symm).1, rfl⟩
  rw [if_neg hbs, if_neg hbs, ConsoleInput.enter, hshows.edit_sub]
  by_cases hroom : editor.queue.length + editor.pending.length < inputBuf
  · rw [if_pos ⟨hzero, hroom⟩, if_pos hroom]
    generalize (if c = ctrlCr then ctrlLf else c) = stored
    obtain ⟨hedit, -, hpend, hcommit⟩ := hshows.enter hroom stored
    have hcount : (console.editIndex + 1 - console.readIndex).toNat =
        editor.queue.length + (editor.pending ++ [stored]).length := by
      change console.editIndex + 1 = _ at hedit
      rw [hedit, toNat_add_sub]
      apply small_of_le
      rw [List.length_append, List.length_singleton]
      omega
    dsimp only
    rw [hcount]
    split
    · exact ⟨hcommit, rfl⟩
    · next hopen => exact ⟨hpend fun hlf => hopen (.inl hlf), rfl⟩
  · rw [if_neg fun hboth => hroom hboth.2, if_neg hroom]
    exact ⟨hshows, rfl⟩

/-- The first byte of the queue is read. -/
theorem Shows.advance {first : UInt8} {rest : List UInt8}
    (hshows : Shows console editor) (hqueue : editor.queue = first :: rest) :
    console.buf (cell inputBuf console.readIndex) = first ∧
      Shows { console with readIndex := console.readIndex + 1 } (editor.advance first rest) := by
  have hstored := hshows.stored
  have hroom := hshows.room
  rw [hqueue] at hstored hroom
  rw [List.length_cons] at hroom
  obtain ⟨hbyte, hrest⟩ := hstored.pop inputBuf_dvd
  refine ⟨hbyte, ?_, hshows.edit, ?_, hrest, hshows.line⟩
  · change console.writeIndex = console.readIndex + BitVec.ofNat 64 1 + BitVec.ofNat 64 rest.length
    rw [hshows.write, hqueue, add_ofNat, List.length_cons, Nat.add_comm]
  · change rest.length + editor.pending.length ≤ inputBuf
    omega

/-- A reader gets what the editor gives it. -/
theorem Shows.read (hshows : Shows console editor) (size : ℕ) (killed : Bool) (left : ℕ) :
    Shows (consoleRead size killed left console).1 (editor.serve size killed left).1 ∧
      (consoleRead size killed left console).2 = (editor.serve size killed left).2 := by
  induction left generalizing console editor with
  | zero => exact ⟨hshows, rfl⟩
  | succ left ih =>
    rw [consoleRead, Editor.serve]
    cases hqueue : editor.queue with
    | nil =>
      rw [if_pos (hshows.read_eq_write.mpr hqueue)]
      exact ⟨hshows, rfl⟩
    | cons first rest =>
      obtain ⟨hbyte, hnext⟩ := hshows.advance hqueue
      rw [if_neg (by rw [hshows.read_eq_write, hqueue]; simp)]
      dsimp only
      rw [hbyte]
      by_cases heot : first = ctrlEot
      · rw [if_pos heot, if_pos heot]
        refine ⟨?_, rfl⟩
        split
        · -- the mark is put back for the next request
          rw [BitVec.add_sub_cancel]
          exact hshows
        · exact hnext
      · rw [if_neg heot, if_neg heot]
        by_cases hlf : first = ctrlLf
        · rw [if_pos hlf, if_pos hlf]
          exact ⟨hnext, rfl⟩
        · rw [if_neg hlf, if_neg hlf]
          obtain ⟨hlater, hgiven⟩ := ih hnext
          refine ⟨hlater, ?_⟩
          rw [hgiven]

end Shows

/-! ## Every run -/

section Runs

variable {Reader : Type} [DecidableEq Reader]

def delivered (events : List (Action Reader × Output)) : List UInt8 :=
  (events.map fun event => event.2.delivered).flatten

/-- The desks of the console and of the editor are in step. -/
structure InStep (desk : Desk Console Reader) (reference : Desk Editor Reader) :
    Prop where
  shows : Shows desk.device reference.device
  waiting : desk.waiting = reference.waiting
  killed : desk.killed = reference.killed

variable {desk next : Desk Console Reader} {reference : Desk Editor Reader}

theorem InStep.turn (hstep : InStep desk reference) (reader : Reader) (size left : ℕ) :
    (turn console desk reader size left).2 = (turn editor reference reader size left).2 ∧
      InStep (turn console desk reader size left).1 (turn editor reference reader size left).1 := by
  obtain ⟨hshows, hgiven⟩ := hstep.shows.read size (desk.killed reader) left
  rw [hstep.killed] at hshows hgiven
  simp only [ConsoleInput.turn, console, editor, hstep.killed, hgiven]
  exact ⟨trivial, hshows, congrArg (update · _ _) hstep.waiting, rfl⟩

/-- Every step of the console is one of the editor, with the same output. -/
theorem InStep.perform (hstep : InStep desk reference) {action : Action Reader} {output : Output}
    (hperform : perform console desk action = some (next, output)) :
    ∃ after, ConsoleInput.perform editor reference action =
        some (after, output) ∧ InStep next after := by
  cases action with
  | intr c =>
    cases hperform
    obtain ⟨hshows, hecho⟩ := hstep.shows.intr c
    refine ⟨{ reference with device := (reference.device.intr c).1 }, ?_,
      hshows, hstep.waiting, hstep.killed⟩
    simp only [console, ConsoleInput.perform, editor, hecho]
  | read reader size =>
    simp only [ConsoleInput.perform, hstep.waiting] at hperform ⊢
    split at hperform
    · obtain ⟨houtput, hnext⟩ := hstep.turn reader size size
      cases hperform
      exact ⟨_, congrArg some (Prod.ext rfl houtput.symm), hnext⟩
    · cases hperform
  | resume reader =>
    simp only [ConsoleInput.perform, hstep.waiting] at hperform ⊢
    split at hperform
    · cases hperform
    · next size left _ =>
        obtain ⟨houtput, hnext⟩ := hstep.turn reader size left
        cases hperform
        exact ⟨_, congrArg some (Prod.ext rfl houtput.symm), hnext⟩
  | kill reader =>
    cases hperform
    exact ⟨_, rfl, hstep.shows, hstep.waiting,
      congrArg (update · reader true) hstep.killed⟩

/-- What the editor has given out so far. -/
def Accounted (given : List UInt8) (reference : Desk Editor Reader) : Prop :=
  Conserved reference.device ∧ reference.device.taken.filter (· ≠ ctrlEot) = given

theorem Accounted.perform {given : List UInt8} {after : Desk Editor Reader}
    {action : Action Reader} {output : Output} (haccounted : Accounted given reference)
    (hperform : perform editor reference action = some (after, output)) :
    Accounted (given ++ output.delivered) after := by
  obtain ⟨hconserved, rfl⟩ := haccounted
  have hturn : ∀ reader size left, Accounted (reference.device.taken.filter (· ≠ ctrlEot) ++
        (turn editor reference reader size left).2.delivered)
        (turn editor reference reader size left).1 := fun reader size left =>
      hconserved.serve size (reference.killed reader) left
  cases action with
  | intr c =>
    cases hperform
    obtain ⟨hkept, htaken⟩ := hconserved.intr c
    exact ⟨hkept, (congrArg (List.filter _) htaken).trans (List.append_nil _).symm⟩
  | read reader size =>
    simp only [ConsoleInput.perform] at hperform
    split at hperform
    · cases hperform
      exact hturn reader size size
    · cases hperform
  | resume reader =>
    simp only [ConsoleInput.perform] at hperform
    split at hperform
    · cases hperform
    · next size left _ =>
        cases hperform
        exact hturn reader size left
  | kill reader =>
    cases hperform
    exact ⟨hconserved, (List.append_nil _).symm⟩

theorem accounted_of_run {first last : Desk Editor Reader}
    {record : List (Desk Editor Reader × Action Reader × Output)}
    (hrun : Run (observed (perform editor)) first record last) (hfirst : Accounted [] first) :
    Accounted (delivered (events record)) last := by
  have hkeep : ∀ given state (event : Action Reader × Output) next, Accounted given state → True →
      observed (perform editor) state event = some next →
        Accounted (given ++ event.2.delivered) next :=
    fun _ _ _ _ hkept _ hstep => hkept.perform (observed_eq_some.mp hstep)
  have haccounted : Accounted (record.foldl (fun given entry => given ++ entry.2.2.delivered) [])
      last := hrun.remembers hkeep hfirst fun _ _ => trivial
  rw [List.foldl_append_eq_append, List.nil_append] at haccounted
  rwa [delivered, events, List.map_map]

/-- In every run the console is in step with a line editor that takes the same
actions and gives the same answers.  The indices stay in order, the ring shows
the committed bytes that have not been taken, and what the readers got is what
was taken, each byte once and in order. -/
theorem run_edits {last : Desk Console Reader}
    {record : List (Desk Console Reader × Action Reader × Output)}
    (hrun : Run (observed (perform console)) (Desk.new Console.new) record last) :
    Ordered last.device ∧ ∃ (after : Desk Editor Reader) (carried : _),
        Run (observed (perform editor)) (Desk.new Editor.new) carried after ∧
        events carried = events record ∧ InStep last after ∧
        after.device.committed = after.device.taken ++ after.device.queue ∧
        delivered (events record) = after.device.taken.filter (· ≠ ctrlEot) := by
  have hfirst : InStep (Desk.new Console.new : Desk Console Reader)
      (Desk.new Editor.new) := ⟨shows_new, rfl, rfl⟩
  obtain ⟨after, carried, hcarried, hevents, hlast⟩ :=
    Run.simulated (fun _ _ _ _ _ hstep hperform => hstep.perform hperform) hrun hfirst
  obtain ⟨hconserved, hgiven⟩ := accounted_of_run hcarried ⟨rfl, rfl⟩
  rw [hevents] at hgiven
  exact ⟨hlast.shows.ordered, after, carried, hcarried, hevents, hlast, hconserved, hgiven.symm⟩

end Runs

/-- Two letters, the second one erased, and the end of the line; then a reader
asks for ten bytes. -/
def typed : List (Action Unit × Output) :=
  [(.intr 104, .echo [104] false), (.intr 105, .echo [105] false),
    (.intr ctrlDel, .echo [8, 32, 8] false), (.intr ctrlCr, .echo [10] true),
    (.read () 10, .answer [104, 10] (.returned (some 2)))]

/-- The line as the reader gets it. -/
theorem run_edits_typed :
    ∃ last record, Run (observed (perform console)) (Desk.new Console.new) record last ∧
        events record = typed ∧ Ordered last.device ∧ ∃ after : Desk Editor Unit,
          InStep last after ∧ after.device.taken.filter (· ≠ ctrlEot) = [104, 10] := by
  have hsome : (typed.foldlM (observed (perform console))
      (Desk.new Console.new)).isSome = true := by decide +kernel
  obtain ⟨last, hlast⟩ := Option.isSome_iff_exists.mp hsome
  obtain ⟨record, hrun, hevents⟩ := Run.of_foldlM hlast
  obtain ⟨hordered, after, -, -, -, hstep, -, hgiven⟩ := run_edits hrun
  rw [events, hevents] at hgiven
  exact ⟨last, record, hrun, hevents, hordered, after, hstep, hgiven.symm⟩

end RxOs.LineEditor
