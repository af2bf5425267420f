import RxOs.Core.WrappingRing

/-!
# The console

The ring of input bytes, the interrupt handler that edits it, and the readers
that take bytes out of it.  Handler and readers work under the lock of the
console; a reader that finds nothing sleeps, which gives the lock up, and goes
on where it was when it has the lock again.
-/

namespace RxOs.ConsoleInput

open Function WrappingRing

def inputBuf : ℕ := 128

def ctrlEot : UInt8 := 0x04

def ctrlBs : UInt8 := 0x08

def ctrlLf : UInt8 := 0x0A

def ctrlCr : UInt8 := 0x0D

def ctrlDel : UInt8 := 0x7F

def ctrlPrintProcess : UInt8 := 0x10

def ctrlBsLine : UInt8 := 0x15

/-- `Console`, with indices of type `Wrapping<usize>`. -/
structure Console where
  buf : ℕ → UInt8
  readIndex : BitVec 64
  writeIndex : BitVec 64
  editIndex : BitVec 64

def Console.new : Console := ⟨fun _ => 0, 0, 0, 0⟩

/-- `putc`: the bytes that go to the terminal. -/
def putc (c : UInt8) : List UInt8 :=
  if c = ctrlBs then [ctrlBs, 0x20, ctrlBs] else [c]

/-! ## The interrupt handler -/

/-- The loop for `CTRL_BS_LINE`: the console after it and what was echoed.  It
stops at the latest when the edit index has come down to the write index. -/
def eraseLine : ℕ → Console → Console × List UInt8
  | 0, console => (console, [])
  | turns + 1, console =>
    if console.editIndex ≠ console.writeIndex ∧
        console.buf (cell inputBuf (console.editIndex - 1)) ≠ ctrlLf then
      let rest := eraseLine turns { console with editIndex := console.editIndex - 1 }
      (rest.1, putc ctrlBs ++ rest.2)
    else (console, [])

/-- Any other byte: it is echoed and stored, and the line is given to the
readers if it is complete or the ring is full. -/
def enter (c : UInt8) (console : Console) : Console × List UInt8 × Bool :=
  if c ≠ 0 ∧ (console.editIndex - console.readIndex).toNat < inputBuf then
    let c := if c = ctrlCr then ctrlLf else c
    let console : Console :=
      { console with
        buf := update console.buf (cell inputBuf console.editIndex) c
        editIndex := console.editIndex + 1 }
    if c = ctrlLf ∨ c = ctrlEot ∨ (console.editIndex - console.readIndex).toNat = inputBuf then
      ({ console with writeIndex := console.editIndex }, putc c, true)
    else (console, putc c, false)
  else (console, [], false)

/-- `console_intr`: the console after it, what was echoed, and whether the
readers were woken up. -/
def consoleIntr (c : UInt8) (console : Console) : Console × List UInt8 × Bool :=
  if c = ctrlPrintProcess then (console, [], false)
  else if c = ctrlBsLine then
    let erased := eraseLine (console.editIndex - console.writeIndex).toNat console
    (erased.1, erased.2, false)
  else if c = ctrlBs ∨ c = ctrlDel then
    if console.editIndex ≠ console.writeIndex then
      ({ console with editIndex := console.editIndex - 1 }, putc ctrlBs, false)
    else (console, [], false)
  else enter c console

/-! ## Readers -/

/-- How a reader leaves the lock: it returns from `console_read`, or sleeps with
`left` bytes still wanted. -/
inductive Outcome
  | returned (result : Option ℕ)
  | asleep (left : ℕ)
  deriving DecidableEq

/-- `console_read` from when it has the lock to when it gives it up, with `left`
of `size` bytes wanted: the console, the bytes that were copied to the reader,
and how it went on. -/
def consoleRead (size : ℕ) (killed : Bool) :
    ℕ → Console → Console × List UInt8 × Outcome
  | 0, console => (console, [], .returned (some size))
  | left + 1, console =>
    if console.readIndex = console.writeIndex then
      (console, [],
        if killed then .returned none else .asleep (left + 1))
    else
      let c := console.buf (cell inputBuf console.readIndex)
      let next : Console := { console with readIndex := console.readIndex + 1 }
      if c = ctrlEot then
        (if left + 1 < size then
            { next with readIndex := next.readIndex - 1 }
          else next,
          [], .returned (some (size - (left + 1))))
      else if c = ctrlLf then (next, [c], .returned (some (size - left)))
      else
        let rest := consoleRead size killed left next
        (rest.1, c :: rest.2.1, rest.2.2)

/-! ## The console and its readers -/

/-- A terminal as the kernel sees it: what an interrupt and a reader do. -/
structure Terminal (Device : Type) where
  intr : UInt8 → Device → Device × List UInt8 × Bool
  serve : ℕ → Bool → ℕ → Device → Device × List UInt8 × Outcome

def console : Terminal Console := ⟨consoleIntr, consoleRead⟩

/-- A device with its readers: size and rest of the requests that sleep, and the
readers that have been killed. -/
structure Desk (Device Reader : Type) where
  device : Device
  waiting : Reader → Option (ℕ × ℕ)
  killed : Reader → Bool

def Desk.new {Device Reader : Type} (device : Device) : Desk Device Reader :=
  ⟨device, fun _ => none, fun _ => false⟩

/-- A byte comes in, a reader calls `console_read`, a reader that slept has the
lock again, a reader is killed. -/
inductive Action (Reader : Type)
  | intr (c : UInt8)
  | read (reader : Reader) (size : ℕ)
  | resume (reader : Reader)
  | kill (reader : Reader)

inductive Output
  | echo (sent : List UInt8) (woke : Bool)
  | answer (bytes : List UInt8) (outcome : Outcome)
  | nothing
  deriving DecidableEq

def Output.delivered : Output → List UInt8
  | .answer bytes _ => bytes
  | _ => []

section Desk

variable {Device Reader : Type} [DecidableEq Reader]

def turn (terminal : Terminal Device) (desk : Desk Device Reader)
    (reader : Reader) (size left : ℕ) : Desk Device Reader × Output :=
  let served := terminal.serve size (desk.killed reader) left desk.device
  ({ desk with
      device := served.1
      waiting := update desk.waiting reader (match served.2.2 with
        | .asleep left => some (size, left)
        | .returned _ => none) },
    .answer served.2.1 served.2.2)

/-- The steps of the system.  A reader that sleeps may get the lock again at any
time: it looks for bytes and sleeps again if there are none. -/
def perform (terminal : Terminal Device) (desk : Desk Device Reader) :
    Action Reader → Option (Desk Device Reader × Output)
  | .intr c =>
    let handled := terminal.intr c desk.device
    some ({ desk with device := handled.1 }, .echo handled.2.1 handled.2.2)
  | .read reader size =>
    match desk.waiting reader with
    | none => some (turn terminal desk reader size size)
    | some _ => none
  | .resume reader =>
    match desk.waiting reader with
    | none => none
    | some (size, left) => some (turn terminal desk reader size left)
  | .kill reader => some ({ desk with killed := update desk.killed reader true }, .nothing)

end Desk

end RxOs.ConsoleInput
