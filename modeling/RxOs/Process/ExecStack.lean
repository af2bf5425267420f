import RxOs.Memory.UserCopy

/-!
# The arguments of a new program

`exec` copies the arguments to the stack page of the new program, one below the
other, and below them the array of their addresses that `main` receives as
`argv`.
-/

namespace RxOs.ExecStack

open Function ByteView PageTable Frames UserCopy
open Params (maxArg)

/-- `USTACK_BASE + USTACK_SIZE`. -/
def stackTop : ℕ := ustackBase + pgSize

def alignSp (sp : ℕ) : ℕ := sp - sp % 16

inductive Fault
  | failed (message : String)
  | outOfBounds

/-- The stack pointer, and the entries of `user_stack` that are filled in. -/
structure Stack where
  sp : ℕ
  pointers : List ℕ

/-- Room is made on the stack and the bytes are copied there; the messages are
for a full stack and for a failed copy. -/
def place (table : Table) (full uncopied : String) (src : List UInt8) (stack : Stack) :
    MemM (Except Fault Stack) := do
  let sp := alignSp (stack.sp - src.length)
  if sp < ustackBase then return .error (.failed full)
  else
    match ← copyOut table sp src with
    | .error _ => return .error (.failed uncopied)
    | .ok () => return .ok { stack with sp := sp }

/-- The loop over `argv`, up to the first null pointer. -/
def pushArgs (table : Table) : List (Option (List UInt8)) → Stack → MemM (Except Fault Stack)
  | [], _ => return .error .outOfBounds
  | none :: _, stack => return .ok stack
  | some arg :: argv, stack => do
    if maxArg ≤ stack.pointers.length then
      return .error (.failed "exec: argc is more than MAXARG")
    else
      match ← place table "exec: User stack Bomb!" "exec: Fail to copy out" (arg ++ [0]) stack with
      | .error fault => return .error fault
      | .ok stack => pushArgs table argv { stack with pointers := stack.pointers ++ [stack.sp] }

/-- The bytes of an array of addresses. -/
def wordBytes (words : List ℕ) : List UInt8 :=
  words.flatMap fun word => (List.range 8).map (leByte word)

/-- `user_stack` with the null pointer behind the others. -/
def pushPointers (table : Table) (stack : Stack) : MemM (Except Fault Stack) :=
  if maxArg ≤ stack.pointers.length then return .error .outOfBounds
  else place table "exec: Too Many arguments (exceed user stack)" "Exec: Fail to copy out."
    (wordBytes (stack.pointers ++ [0])) stack

/-- The part of `exec` that sets up the stack, on the page table it has made. -/
def execStack (table : Table) (argv : List (Option (List UInt8))) :
    MemM (Except Fault Stack) := do
  match ← pushArgs table argv ⟨stackTop, []⟩ with
  | .error fault => return .error fault
  | .ok stack => pushPointers table stack

/-- The array that `sys_exec` passes on: null pointers behind the arguments. -/
def argvOf (args : List (List UInt8)) : List (Option (List UInt8)) :=
  args.map some ++ List.replicate (maxArg - args.length) none

/-! ## The stack page -/

/-- The bytes stand in the page from position `start` on. -/
def Holds (page : ℕ → UInt8) (start : ℕ) (bytes : List UInt8) : Prop :=
  ∀ k (hk : k < bytes.length), page (start + k) = bytes[k]

/-- The page table has a stack page, as `ualloc_stack` makes it. -/
structure HasStack (table : Table) (frame : ℕ) : Prop where
  formed : table.Formed
  mapped : table.userPage ustackBase = some frame

/-- Memory has changed at most in a page, from position `low` on. -/
def Kept (frame low : ℕ) (first memory : Memory) : Prop :=
  ∃ page, memory = { first with bytes := update first.bytes frame page } ∧
    ∀ position < low, page position = first.bytes frame position

variable {table : Table} {frame low start position : ℕ} {first memory : Memory}
variable {src bytes : List UInt8}

theorem holds_writePage (contents : ℕ → ℕ → UInt8) (frame start : ℕ) (src : List UInt8) :
    Holds (writePage contents frame start src frame) start src := by
  intro k hk
  simp [writePage, hk]

theorem writePage_off {contents : ℕ → ℕ → UInt8}
    (hoff : position < start ∨ start + src.length ≤ position) :
    writePage contents frame start src frame position = contents frame position := by
  rw [writePage, update_self, if_neg (by omega)]

theorem Holds.writePage {contents : ℕ → ℕ → UInt8} (hholds : Holds (contents frame) position bytes)
    (hoff : start + src.length ≤ position) :
    Holds (writePage contents frame start src frame) position bytes := by
  intro k hk
  rw [writePage_off (Or.inr (by omega))]
  exact hholds k hk

theorem Kept.writePage (hkept : Kept frame low first memory) (hstart : start ≤ low) :
    Kept frame start first
      { memory with bytes := writePage memory.bytes frame start src } := by
  obtain ⟨page, rfl, hpage⟩ := hkept
  refine ⟨_, congrArg (fun bytes => { first with bytes := bytes }) (update_idem ..), ?_⟩
  intro position hposition
  rw [if_neg (by omega)]
  exact (congrFun (update_self ..) position).trans (hpage position (by omega))

/-- `copy_out` to the stack page. -/
theorem copyOut_stack (hstack : HasStack table frame) {sp : ℕ} (hlow : ustackBase ≤ sp)
    (hsrc : 0 < src.length) (hhigh : sp + src.length ≤ stackTop) (memory : Memory) :
    copyOut table sp src memory = .ok (.ok ()) { memory with
      bytes := writePage memory.bytes frame (sp - ustackBase) src } := by
  have haligned : ustackBase % pgSize = 0 := by decide
  have hsp : ustackBase + (sp - ustackBase) = sp := Nat.add_sub_cancel' hlow
  have hfits : sp - ustackBase + src.length ≤ pgSize := by
    unfold stackTop at hhigh
    omega
  have hvalid := validRange_of_page haligned hstack.mapped hfits
  have hstored := storeBytes_eq_writePage haligned hstack.mapped memory.bytes src hfits
  rw [hsp] at hvalid hstored
  have hreachable : Reachable table sp src.length := by
    rw [Reachable, max_eq_left hsrc]
    exact hvalid
  obtain ⟨result, next, hrun, -, rfl, rfl⟩ :=
    ((ensures_copyOut sp src (paged_of_formed hstack.formed _ _) memory).imp
      (fun _ _ hdone => hdone) fun _ _ hstopped => hstopped hreachable).exists_ok
  rw [hrun, hstored]

/-- What the page holds is what the program reads. -/
theorem HasStack.userBytes_eq (hstack : HasStack table frame) {pointer : ℕ}
    (hlow : ustackBase ≤ pointer) (hhigh : pointer + bytes.length ≤ stackTop)
    (hholds : Holds (memory.bytes frame) (pointer - ustackBase) bytes) :
    userBytes table memory pointer bytes.length = bytes := by
  have hfits : pointer - ustackBase + bytes.length ≤ pgSize := by
    unfold stackTop at hhigh
    omega
  have hread := userBytes_eq_readPage (by decide) hstack.mapped memory hfits
  rw [Nat.add_sub_cancel' hlow] at hread
  rw [hread]
  apply List.ext_getElem
  · simp [readPage]
  · intro k _ hk
    simp [readPage, hholds k hk]

/-! ## The stack pointer -/

/-- The bytes of the stack that an item of `size` bytes takes. -/
def room (size : ℕ) : ℕ := 16 * ((size + 15) / 16)

def used (args : List (List UInt8)) : ℕ :=
  (args.map fun arg => room (arg.length + 1)).sum

theorem le_room (size : ℕ) : size ≤ room size := by
  unfold room
  omega

theorem used_concat (args : List (List UInt8)) (arg : List UInt8) (rest : List (List UInt8)) :
    used (args ++ [arg] ++ rest) = used args + room (arg.length + 1) + used rest := by
  simp [used, Nat.add_assoc]

theorem used_mod (args : List (List UInt8)) : used args % 16 = 0 := by
  unfold used room
  induction args with
  | nil => rfl
  | cons arg args ih =>
    rw [List.map_cons, List.sum_cons]
    omega

theorem length_wordBytes (words : List ℕ) : (wordBytes words).length = 8 * words.length := by
  simp [wordBytes, Nat.mul_comm]

variable {args : List (List UInt8)} {stack : Stack}

theorem place_eq (hstack : HasStack table frame) (full uncopied : String)
    (hsrc : 0 < src.length) (haligned : stack.sp % 16 = 0) (htop : stack.sp ≤ stackTop) :
    place table full uncopied src stack memory =
      if ustackBase + room src.length ≤ stack.sp then
        .ok (.ok { stack with sp := stack.sp - room src.length }) { memory with
          bytes := writePage memory.bytes frame (stack.sp - room src.length - ustackBase) src }
      else .ok (.error (.failed full)) memory := by
  have hbase : 0 < ustackBase := by decide
  have hle := le_room src.length
  have hsp : alignSp (stack.sp - src.length) = stack.sp - room src.length := by
    unfold alignSp room
    omega
  change (if alignSp _ < ustackBase then _ else EStateM.bind _ _ : MemM (Except Fault Stack)) _ = _
  rw [hsp]
  split
  · rw [if_neg (by omega)]
    rfl
  · rw [if_pos (by omega), EStateM.bind,
      copyOut_stack hstack (by omega) hsrc (by omega) memory]
    rfl

/-! ## The loop -/

/-- The strings of the arguments stand at their addresses, none below `low`. -/
def Strings (frame low : ℕ) (memory : Memory) : List (List UInt8) → List ℕ → Prop :=
  List.Forall₂ fun arg pointer => low ≤ pointer ∧ pointer + (arg.length + 1) ≤ stackTop ∧
    Holds (memory.bytes frame) (pointer - ustackBase) (arg ++ [0])

theorem Strings.writePage {pointers : List ℕ} (hstrings : Strings frame low memory args pointers)
    (start : ℕ) (src : List UInt8) (hbelow : start + src.length ≤ low - ustackBase) :
    Strings frame low { memory with bytes := writePage memory.bytes frame start src }
      args pointers :=
  hstrings.imp fun _ _ hstring =>
    ⟨hstring.1, hstring.2.1, hstring.2.2.writePage (by omega)⟩

/-- The stack after some of the arguments. -/
structure Pushed (frame : ℕ) (first : Memory) (args : List (List UInt8)) (memory : Memory)
    (stack : Stack) : Prop where
  sp_eq : stack.sp + used args = stackTop
  inside : ustackBase ≤ stack.sp
  kept : Kept frame (stack.sp - ustackBase) first memory
  strings : Strings frame stack.sp memory args stack.pointers

theorem pushed_start (frame : ℕ) (first : Memory) : Pushed frame first [] first ⟨stackTop, []⟩ :=
  ⟨rfl, Nat.le_add_right _ _, ⟨first.bytes frame, by rw [update_eq_self], fun _ _ => rfl⟩, .nil⟩

theorem Pushed.aligned (hpushed : Pushed frame first args memory stack) : stack.sp % 16 = 0 := by
  have hsp := hpushed.sp_eq
  have hused := used_mod args
  have htop : stackTop % 16 = 0 := by decide
  omega

theorem Pushed.le_stackTop (hpushed : Pushed frame first args memory stack) :
    stack.sp ≤ stackTop :=
  hpushed.sp_eq ▸ Nat.le_add_right _ _

/-- An argument that has room goes below the others. -/
theorem Pushed.push (hpushed : Pushed frame first args memory stack) (arg : List UInt8)
    {sp : ℕ} (hsp : sp + room (arg.length + 1) = stack.sp) (hinside : ustackBase ≤ sp) :
    Pushed frame first (args ++ [arg])
      { memory with bytes := writePage memory.bytes frame (sp - ustackBase) (arg ++ [0]) }
      ⟨sp, stack.pointers ++ [sp]⟩ := by
  have htop := hpushed.sp_eq
  have hlength : (arg ++ [0]).length = arg.length + 1 := List.length_append
  have hle := le_room (arg.length + 1)
  have hdown : sp ≤ stack.sp := by omega
  have hused := used_concat args arg []
  rw [List.append_nil] at hused
  refine ⟨?_, hinside, hpushed.kept.writePage (Nat.sub_le_sub_right hdown _),
    List.rel_append ?_ (.cons ⟨Nat.le_refl _, ?_, holds_writePage _ _ _ _⟩ .nil)⟩
  · rw [hused]
    change sp + (_ + _ + 0) = _
    omega
  · exact (hpushed.strings.writePage _ _ (by omega)).imp fun _ _ hstring =>
      ⟨hdown.trans hstring.1, hstring.2⟩
  · omega

/-- What a part of `exec` comes to: a stack if there is room, or an error. -/
def Yields (result : EStateM.Result Panic Memory (Except Fault Stack)) (fits : Prop)
    (done : Memory → Stack → Prop) : Prop :=
  (fits → ∃ stack last, result = .ok (.ok stack) last ∧ done last stack) ∧
    (¬fits → ∃ message last, result = .ok (.error (.failed message)) last)

theorem Pushed.pushArgs (hstack : HasStack table frame)
    (hpushed : Pushed frame first args memory stack) (rest : List (List UInt8))
    (hcount : args.length + rest.length < maxArg) (tail : List (Option (List UInt8))) :
    Yields (pushArgs table (rest.map some ++ none :: tail) stack memory)
      (used (args ++ rest) ≤ pgSize) (Pushed frame first (args ++ rest)) := by
  have htop : stackTop = ustackBase + pgSize := rfl
  have hsp := hpushed.sp_eq
  have hinside := hpushed.inside
  induction rest generalizing args stack memory with
  | nil =>
    rw [List.append_nil]
    exact ⟨fun _ => ⟨stack, memory, rfl, hpushed⟩, fun hfull => absurd hfull (by omega)⟩
  | cons arg rest ih =>
    rw [List.length_cons] at hcount
    have hlength := hpushed.strings.length_eq
    have hfew : ¬maxArg ≤ stack.pointers.length := by omega
    rw [List.map_cons, List.cons_append, ExecStack.pushArgs, if_neg hfew,
      List.append_cons args]
    change Yields (EStateM.bind _ _ memory) _ _
    rw [EStateM.bind, place_eq hstack _ _ (by simp) hpushed.aligned hpushed.le_stackTop,
      List.length_append, List.length_singleton]
    by_cases hroom : ustackBase + room (arg.length + 1) ≤ stack.sp
    · rw [if_pos hroom]
      have hpush := hpushed.push arg (Nat.sub_add_cancel (by omega)) (by omega)
      refine ih hpush ?_ hpush.sp_eq hpush.inside
      rw [List.length_append, List.length_singleton]
      omega
    · rw [if_neg hroom, used_concat]
      exact ⟨fun hfits => absurd hfits (by omega), fun _ => ⟨_, _, rfl⟩⟩

/-! ## What the program finds -/

/-- The stack on which the program starts: `argv` points at the addresses of
the arguments and a null pointer, each address at the bytes of its argument and
a zero, and nothing else in memory has changed. -/
structure Passed (table : Table) (frame : ℕ) (first : Memory) (args : List (List UInt8))
    (memory : Memory) (stack : Stack) : Prop where
  argc : stack.pointers.length = args.length
  aligned : stack.sp % 16 = 0
  inside : ustackBase ≤ stack.sp
  argv : userBytes table memory stack.sp (8 * (args.length + 1)) = wordBytes (stack.pointers ++ [0])
  arg : List.Forall₂ (fun arg pointer => stack.sp + 8 * (args.length + 1) ≤ pointer ∧
    pointer + (arg.length + 1) ≤ stackTop ∧
    userBytes table memory pointer (arg.length + 1) = arg ++ [0]) args stack.pointers
  kept : Kept frame (stack.sp - ustackBase) first memory

/-- The array of addresses, written below the strings. -/
theorem Pushed.passed (hstack : HasStack table frame)
    (hpushed : Pushed frame first args memory stack) {sp : ℕ} (haligned : sp % 16 = 0)
    (hinside : ustackBase ≤ sp) (hbelow : sp + 8 * (args.length + 1) ≤ stack.sp) :
    Passed table frame first args
      { memory with
        bytes := writePage memory.bytes frame (sp - ustackBase)
          (wordBytes (stack.pointers ++ [0])) } ⟨sp, stack.pointers⟩ := by
  have hargc := hpushed.strings.length_eq
  have hlength : (wordBytes (stack.pointers ++ [0])).length = 8 * (args.length + 1) := by
    rw [length_wordBytes, List.length_append, hargc, List.length_singleton]
  have hdown : sp ≤ stack.sp := by omega
  refine ⟨hargc.symm, haligned, hinside, ?_, ?_,
    hpushed.kept.writePage (Nat.sub_le_sub_right hdown _)⟩
  · rw [← hlength] at hbelow ⊢
    exact hstack.userBytes_eq hinside (hbelow.trans hpushed.le_stackTop) (holds_writePage _ _ _ _)
  · refine (hpushed.strings.writePage (sp - ustackBase) (wordBytes (stack.pointers ++ [0]))
      (by omega)).imp fun arg pointer ⟨hsp, hend, hholds⟩ => ?_
    have hread := hstack.userBytes_eq (by omega) (by simpa using hend) hholds
    rw [List.length_append, List.length_singleton] at hread
    exact ⟨hbelow.trans hsp, hend, hread⟩

theorem Pushed.pushPointers (hstack : HasStack table frame)
    (hpushed : Pushed frame first args memory stack) (hcount : args.length < maxArg) :
    Yields (pushPointers table stack memory) (used args + room (8 * (args.length + 1)) ≤ pgSize)
      (Passed table frame first args) := by
  have hsp := hpushed.sp_eq
  have haligned := hpushed.aligned
  have hargc := hpushed.strings.length_eq
  have htop : stackTop = ustackBase + pgSize := rfl
  have hle := le_room (8 * (args.length + 1))
  have hfew : ¬maxArg ≤ stack.pointers.length := by omega
  rw [ExecStack.pushPointers, if_neg hfew,
    place_eq hstack _ _ (by simp [length_wordBytes]) haligned hpushed.le_stackTop,
    length_wordBytes, List.length_append, ← hargc, List.length_singleton]
  refine ⟨fun hfits => ?_, fun hfull => ?_⟩
  · rw [if_pos (by omega)]
    refine ⟨_, _, rfl, hpushed.passed hstack ?_ (by omega) (by omega)⟩
    unfold room
    omega
  · rw [if_neg (by omega)]
    exact ⟨_, _, rfl⟩

/-- For fewer than `MAXARG` arguments `exec` sets up the stack if all of them
and the array fit in a page, and fails with an error otherwise. -/
theorem execStack_passes (hstack : HasStack table frame) (memory : Memory)
    (args : List (List UInt8)) (hcount : args.length < maxArg) :
    Yields (execStack table (argvOf args) memory)
      (used args + room (8 * (args.length + 1)) ≤ pgSize) (Passed table frame memory args) := by
  obtain ⟨rest, hrest⟩ : ∃ rest, argvOf args = args.map some ++ none :: rest :=
    ⟨List.replicate (maxArg - args.length - 1) none, by
      rw [argvOf, ← List.replicate_succ]
      congr 2
      omega⟩
  obtain ⟨hfits, hfull⟩ :=
    (pushed_start frame memory).pushArgs hstack args (by simpa using hcount) rest
  rw [List.nil_append, ← hrest] at hfits hfull
  change Yields (EStateM.bind _ _ memory) _ _
  rw [EStateM.bind]
  by_cases hargs : used args ≤ pgSize
  · obtain ⟨stack, last, hpush, hpushed⟩ := hfits hargs
    rw [hpush]
    exact hpushed.pushPointers hstack hcount
  · obtain ⟨message, last, hpush⟩ := hfull hargs
    rw [hpush]
    exact ⟨fun hall => absurd hall (by omega), fun _ => ⟨message, last, rfl⟩⟩

/-- A table with a stack page and no other. -/
def stackTable : Table := .single ustackBase (Pte.permRWU.withPerm 3)

/-- `echo hi`. -/
theorem execStack_passes_echo : ∃ stack last,
    execStack stackTable (argvOf [[101, 99, 104, 111], [104, 105]]) blank = .ok (.ok stack) last ∧
      Passed stackTable 3 blank [[101, 99, 104, 111], [104, 105]] last stack := by
  have hstack : HasStack stackTable 3 := ⟨Table.formed_single _ _, by decide⟩
  exact (execStack_passes hstack blank [[101, 99, 104, 111], [104, 105]] (by decide)).1 (by decide)

end RxOs.ExecStack
