import RxOs.Fs.Buffers
import RxOs.Fs.LogState

/-!
# Commit and recovery

The disk traffic of the log: `write_log`, `write_head`, `install_trans` and
`empty_head`, composed by `commit_no_lock` after the last operation of a group
and by `recover` at boot.  Each of them is described by the list of its block
writes.
-/

namespace RxOs.LogCommit

open Function WriteTrace Params LogState Buffers

/-- The log together with the disk it lives on. -/
structure LoggedDisk where
  log : Log
  bufs : BufferedDisk

namespace LoggedDisk

/-- Body of the two copying loops: `route` picks source and target from the
`i`-th log block and the home block it stands for. -/
def transferBlock (route : ℕ → ℕ → ℕ × ℕ) (state : LoggedDisk) (i : ℕ) :
    Except Panic LoggedDisk := do
  let blockno ← state.log.lh.blockno (i - 1)
  return { state with
    bufs := state.bufs.copyBlock (route (state.log.start + i) blockno.toNat) }

/-- `Log::write_log`: cached contents of the group to the log blocks. -/
def writeLog (state : LoggedDisk) : Except Panic LoggedDisk :=
  (List.range' 1 state.log.lh.len).foldlM
    (transferBlock fun logBlock home => (home, logBlock)) state

def writeHead (state : LoggedDisk) : LoggedDisk :=
  { state with
    bufs := (state.bufs.modify state.log.start
      (state.log.lh.encode (state.bufs.read state.log.start))).write state.log.start }

def readHead (state : LoggedDisk) : LoggedDisk :=
  { state with
    log := { state.log with
      lh := LogHeader.decode (state.bufs.read state.log.start) } }

/-- `Log::empty_head`: clears `len` in memory and in the header block. -/
def emptyHead (state : LoggedDisk) : LoggedDisk where
  log := state.log.emptied
  bufs := (state.bufs.modify state.log.start
    (ByteView.writeU32 (state.bufs.read state.log.start) 0 0)).write state.log.start

/-- `Log::install_trans`: log blocks to the home blocks of the group.  The pins
that a commit gives back are the concern of the buffer cache and do not change
any data, so the `recovering` flag does not appear. -/
def installTrans (state : LoggedDisk) : Except Panic LoggedDisk :=
  (List.range' 1 state.log.lh.len).foldlM
    (transferBlock fun logBlock home => (logBlock, home)) state

def commitNoLock (state : LoggedDisk) : Except Panic LoggedDisk :=
  if !state.log.commiting then .error .logNotCommitting
  else if state.log.lh.len > 0 then do
    let logged ← state.writeLog
    let installed ← logged.writeHead.installTrans
    return installed.emptyHead
  else .ok state

def recover (state : LoggedDisk) : Except Panic LoggedDisk :=
  if state.readHead.log.lh.len > 0 then do
    let installed ← state.readHead.installTrans
    return installed.emptyHead
  else .ok state.readHead

def beginOp (state : LoggedDisk) : Except Stop LoggedDisk :=
  match state.log.beginOp with
  | some log => .ok { state with log := log }
  | none => .error .sleep

/-- A held buffer is given new contents and handed to `Log::write`. -/
def logWrite (state : LoggedDisk) (write : UInt32 × Block) : Except Stop LoggedDisk :=
  match state.log.write write.1 with
  | .ok log => .ok ⟨log, state.bufs.modify write.1.toNat write.2⟩
  | .error cause => .error (.panic cause)

/-- `Log::end_op`, with the commit it runs for the last operation. -/
def endOp (state : LoggedDisk) : Except Stop LoggedDisk :=
  match state.log.endOp with
  | .error cause => .error (.panic cause)
  | .ok (false, log) => .ok { state with log := log }
  | .ok (true, log) =>
    match commitNoLock { state with log := log } with
    | .error cause => .error (.panic cause)
    | .ok committed => .ok { committed with log := { committed.log with commiting := false } }

/-! ## The copying loops -/

/-- The copying loops do not change the log, so their copies can be listed
beforehand. -/
theorem foldlM_transferBlock (route : ℕ → ℕ → ℕ × ℕ) (indices : List ℕ)
    (state : LoggedDisk) (hindices : ∀ i ∈ indices, i - 1 < logSize - 1) :
    indices.foldlM (transferBlock route) state =
      .ok { state with
        bufs := (indices.map fun i => route (state.log.start + i) (state.log.lh.home i)).foldl
            BufferedDisk.copyBlock state.bufs } := by
  induction indices generalizing state with
  | nil => rfl
  | cons i indices ih =>
    have hindex : i - 1 < logSize - 1 := hindices i List.mem_cons_self
    have hstep : transferBlock route state i = .ok { state with
        bufs := state.bufs.copyBlock (route (state.log.start + i) (state.log.lh.home i)) } := by
      simp [transferBlock, LogHeader.blockno, LogHeader.home, hindex]
    rw [List.foldlM_cons, hstep]
    exact ih _ fun other hother => hindices other (List.mem_cons_of_mem _ hother)

end LoggedDisk

end RxOs.LogCommit
