import Mathlib

/-!
# Programs as trees of operations

A program performs operations one after the other and goes on according to the
replies.  Whoever answers is left open: a single machine, or one that serves
several programs in turn.  What holds for all replies therefore holds whatever
happens between two operations of a program.
-/

namespace RxOs.Interaction

variable {Op : Type} {Reply : Op → Type} {Value Result : Type}

/-- A program returns, or performs an operation and continues with its reply. -/
inductive Program (Op : Type) (Reply : Op → Type) (Value : Type)
  | done (value : Value)
  | perform (op : Op) (rest : Reply op → Program Op Reply Value)

def Program.bind (program : Program Op Reply Value)
    (next : Value → Program Op Reply Result) : Program Op Reply Result :=
  match program with
  | .done value => next value
  | .perform op rest => .perform op fun reply => (rest reply).bind next

instance : Monad (Program Op Reply) where
  pure := .done
  bind := Program.bind

theorem Program.bind_done (program : Program Op Reply Value) : program.bind .done = program := by
  induction program with
  | done value => rfl
  | perform op rest ih => rw [bind, funext ih]

theorem Program.bind_bind {Final : Type} (program : Program Op Reply Value)
    (next : Value → Program Op Reply Result) (last : Result → Program Op Reply Final) :
    (program.bind next).bind last = program.bind fun value => (next value).bind last := by
  induction program with
  | done value => rfl
  | perform op rest ih => rw [bind, bind, bind, funext ih]

instance : LawfulMonad (Program Op Reply) :=
  LawfulMonad.mk' _ Program.bind_done (fun _ _ => rfl) Program.bind_bind

def call (op : Op) : Program Op Reply (Reply op) :=
  .perform op .done

/-! ## Execution -/

section Run

variable {M : Type → Type} [Monad M] {answer : (op : Op) → M (Reply op)}

/-- Execute a program with someone who answers at once. -/
def Program.run (answer : (op : Op) → M (Reply op)) :
    Program Op Reply Value → M Value
  | .done value => pure value
  | .perform op rest => do
    let reply ← answer op
    (rest reply).run answer

@[simp]
theorem run_call [LawfulMonad M] (op : Op) : (call op).run answer = answer op :=
  bind_pure (answer op)

theorem run_bind [LawfulMonad M] (program : Program Op Reply Value)
    (next : Value → Program Op Reply Result) :
    (program >>= next).run answer =
      program.run answer >>= fun value => (next value).run answer := by
  change (program.bind next).run answer = _
  induction program with
  | done value => rw [Program.run, pure_bind, Program.bind]
  | perform op rest ih =>
    rw [Program.bind, Program.run, Program.run, bind_assoc]
    exact bind_congr ih

end Run

/-! ## Traces -/

abbrev Trace (Op : Type) (Reply : Op → Type) := List (Σ op : Op, Reply op)

/-- `Walk program trace rest`: after the operations and replies of `trace`,
`rest` is left of `program`. -/
inductive Walk : Program Op Reply Value → Trace Op Reply →
    Program Op Reply Value → Prop
  | start (program : Program Op Reply Value) : Walk program [] program
  | perform {op : Op} {rest : Reply op → Program Op Reply Value}
      (reply : Reply op) {trace : Trace Op Reply}
      {last : Program Op Reply Value} (hwalk : Walk (rest reply) trace last) :
      Walk (.perform op rest) (⟨op, reply⟩ :: trace) last

/-- `program` returns `value` after `trace`. -/
def Returns (program : Program Op Reply Value) (trace : Trace Op Reply) (value : Value) : Prop :=
  Walk program trace (.done value)

/-- One more operation at the end of a walk. -/
theorem Walk.snoc {program : Program Op Reply Value} {trace : Trace Op Reply}
    {op : Op} {rest : Reply op → Program Op Reply Value}
    (hwalk : Walk program trace (.perform op rest)) (reply : Reply op) :
    Walk program (trace ++ [⟨op, reply⟩]) (rest reply) := by
  generalize hlast : Program.perform op rest = last at hwalk
  induction hwalk with
  | start program =>
    subst hlast
    exact .perform reply (.start _)
  | perform first _ ih => exact .perform first (ih hlast)

theorem returns_done {value result : Value} {trace : Trace Op Reply} :
    Returns (.done value) trace result ↔ trace = [] ∧ result = value := by
  constructor
  · intro hreturns
    cases hreturns
    exact ⟨rfl, rfl⟩
  · rintro ⟨rfl, rfl⟩
    exact .start _

theorem returns_perform {op : Op} {rest : Reply op → Program Op Reply Value}
    {trace : Trace Op Reply} {value : Value} :
    Returns (.perform op rest) trace value ↔ ∃ reply tail, trace = ⟨op, reply⟩ :: tail ∧
        Returns (rest reply) tail value := by
  constructor
  · intro hreturns
    cases hreturns with
    | perform reply hwalk => exact ⟨reply, _, rfl, hwalk⟩
  · rintro ⟨reply, tail, rfl, hreturns⟩
    exact .perform reply hreturns

/-- A composition returns when its parts do, one after the other. -/
theorem returns_bind {program : Program Op Reply Value}
    {next : Value → Program Op Reply Result} {trace : Trace Op Reply} {result : Result} :
    Returns (program >>= next) trace result ↔ ∃ value left right, trace = left ++ right ∧
        Returns program left value ∧ Returns (next value) right result := by
  change Returns (program.bind next) trace result ↔ _
  induction program generalizing trace with
  | done value =>
    constructor
    · intro hreturns
      exact ⟨value, [], trace, rfl, .start _, hreturns⟩
    · rintro ⟨value', left, right, rfl, hleft, hright⟩
      obtain ⟨rfl, rfl⟩ := returns_done.mp hleft
      exact hright
  | perform op rest ih =>
    rw [Program.bind, returns_perform]
    constructor
    · rintro ⟨reply, tail, rfl, hreturns⟩
      obtain ⟨value, left, right, rfl, hleft, hright⟩ := (ih reply).mp hreturns
      exact ⟨value, ⟨op, reply⟩ :: left, right, rfl, .perform reply hleft, hright⟩
    · rintro ⟨value, left, right, rfl, hleft, hright⟩
      obtain ⟨reply, tail, rfl, hreturns⟩ := returns_perform.mp hleft
      exact ⟨reply, tail ++ right, rfl, (ih reply).mpr ⟨value, tail, right, rfl, hreturns, hright⟩⟩

/-- The replies determine when a program returns, and with what. -/
theorem Returns.unique {program : Program Op Reply Value}
    {trace more : Trace Op Reply} {value result : Value} (hfirst : Returns program trace value)
    (hsecond : Returns program (trace ++ more) result) : more = [] ∧ result = value := by
  induction program generalizing trace with
  | done final =>
    obtain ⟨rfl, rfl⟩ := returns_done.mp hfirst
    exact returns_done.mp hsecond
  | perform op rest ih =>
    obtain ⟨reply, tail, rfl, htail⟩ := returns_perform.mp hfirst
    obtain ⟨reply', tail', heq, htail'⟩ := returns_perform.mp hsecond
    rw [List.cons_append, List.cons.injEq, Sigma.mk.injEq] at heq
    obtain ⟨⟨-, hreply⟩, rfl⟩ := heq
    obtain rfl := eq_of_heq hreply
    exact ih reply htail htail'

/-! ## Rules -/

/-- A rule for programs: which operations may be performed in which situation,
which replies are to be expected, and which situation comes next. -/
structure Rule (Op : Type) (Reply : Op → Type) (Situation : Type) where
  permits : Op → Situation → Prop
  offers : (op : Op) → Situation → Reply op → Prop
  after : (op : Op) → Situation → Reply op → Situation

variable {Situation : Type} {rule : Rule Op Reply Situation}

/-- The program performs permitted operations only, whatever is replied, and
returns in situations that satisfy the postcondition. -/
def Obeys (rule : Rule Op Reply Situation) :
    Program Op Reply Value → Situation → (Value → Situation → Prop) → Prop
  | .done value, situation, returned => returned value situation
  | .perform op rest, situation, returned =>
    rule.permits op situation ∧ ∀ reply, rule.offers op situation reply →
      Obeys rule (rest reply) (rule.after op situation reply) returned

section Obeys

variable {program : Program Op Reply Value} {situation : Situation}
variable {returned : Value → Situation → Prop}

/-- The rule of consequence. -/
theorem Obeys.imp {returned' : Value → Situation → Prop}
    (hobeys : Obeys rule program situation returned)
    (hreturned : ∀ value situation, returned value situation →
      returned' value situation) : Obeys rule program situation returned' := by
  induction program generalizing situation with
  | done value => exact hreturned value situation hobeys
  | perform op rest ih => exact ⟨hobeys.1, fun reply hoffers => ih reply (hobeys.2 reply hoffers)⟩

theorem obeys_bind {next : Value → Program Op Reply Result} {returned : Result → Situation → Prop} :
    Obeys rule (program >>= next) situation returned ↔
      Obeys rule program situation fun value middle =>
        Obeys rule (next value) middle returned := by
  change Obeys rule (program.bind next) situation returned ↔ _
  induction program generalizing situation with
  | done value => exact Iff.rfl
  | perform op rest ih =>
    exact and_congr_right fun _ => forall_congr' fun reply => imp_congr_right fun _ => ih reply

theorem Obeys.bind {next : Value → Program Op Reply Result}
    {middle : Value → Situation → Prop} {returned : Result → Situation → Prop}
    (hfirst : Obeys rule program situation middle)
    (hnext : ∀ value situation, middle value situation →
      Obeys rule (next value) situation returned) :
    Obeys rule (program >>= next) situation returned :=
  obeys_bind.mpr (hfirst.imp hnext)

end Obeys

/-! ## Programs with a restricted vocabulary -/

def Only (allowed : Op → Prop) : Program Op Reply Value → Prop
  | .done _ => True
  | .perform op rest => allowed op ∧ ∀ reply, Only allowed (rest reply)

section Only

variable {allowed : Op → Prop} {program : Program Op Reply Value}

theorem Only.bind {next : Value → Program Op Reply Result}
    (hfirst : Only allowed program) (hnext : ∀ value, Only allowed (next value)) :
    Only allowed (program >>= next) := by
  change Only allowed (program.bind next)
  induction program with
  | done value => exact hnext value
  | perform op rest ih => exact ⟨hfirst.1, fun reply => ih reply (hfirst.2 reply)⟩

theorem only_call {op : Op} (hallowed : allowed op) :
    Only allowed (call op : Program Op Reply (Reply op)) :=
  ⟨hallowed, fun _ => trivial⟩

theorem Only.ite {condition : Prop} [Decidable condition]
    {left right : Program Op Reply Value} (hleft : Only allowed left)
    (hright : Only allowed right) : Only allowed (if condition then left else right) := by
  split
  · exact hleft
  · exact hright

theorem Only.mono {other : Op → Prop} (honly : Only allowed program)
    (himp : ∀ op, allowed op → other op) : Only other program := by
  induction program with
  | done value => trivial
  | perform op rest ih => exact ⟨himp op honly.1, fun reply => ih reply (honly.2 reply)⟩

/-- Operations that are permitted in a situation and do not change it. -/
theorem Only.obeys {situation : Situation} (honly : Only allowed program)
    (hpermits : ∀ op, allowed op → rule.permits op situation) (hafter : ∀ op reply, allowed op →
      rule.after op situation reply = situation) :
    Obeys rule program situation fun _ now => now = situation := by
  induction program with
  | done value => rfl
  | perform op rest ih =>
    refine ⟨hpermits op honly.1, fun reply _ => ?_⟩
    rw [hafter op reply honly.1]
    exact ih reply (honly.2 reply)

end Only

/-! ## Traces under a rule -/

namespace Rule

def situation (rule : Rule Op Reply Situation) (first : Situation)
    (trace : Trace Op Reply) : Situation :=
  trace.foldl (fun current entry => rule.after entry.1 current entry.2) first

def Offered (rule : Rule Op Reply Situation) :
    Situation → Trace Op Reply → Prop
  | _, [] => True
  | current, entry :: trace => rule.offers entry.1 current entry.2 ∧
      Offered rule (rule.after entry.1 current entry.2) trace

def Permitted (rule : Rule Op Reply Situation) :
    Situation → Trace Op Reply → Prop
  | _, [] => True
  | current, entry :: trace => rule.permits entry.1 current ∧
      Permitted rule (rule.after entry.1 current entry.2) trace

theorem situation_append (rule : Rule Op Reply Situation) (first : Situation)
    (left right : Trace Op Reply) :
    rule.situation first (left ++ right) = rule.situation (rule.situation first left) right :=
  List.foldl_append

theorem offered_append {first : Situation} {left right : Trace Op Reply} :
    rule.Offered first (left ++ right) ↔ rule.Offered first left ∧
        rule.Offered (rule.situation first left) right := by
  induction left generalizing first with
  | nil => simp [Offered, situation]
  | cons entry left ih =>
    rw [List.cons_append, Offered, Offered, ih, and_assoc]
    rfl

end Rule

/-- As long as the replies are those that the rule expects, a program that obeys
the rule performs permitted operations, and what is left of it obeys the rule. -/
theorem Obeys.walk {program rest : Program Op Reply Value}
    {current : Situation} {returned : Value → Situation → Prop}
    {trace : Trace Op Reply} (hobeys : Obeys rule program current returned)
    (hwalk : Walk program trace rest) (hoffered : rule.Offered current trace) :
    rule.Permitted current trace ∧ Obeys rule rest (rule.situation current trace) returned := by
  induction hwalk generalizing current with
  | start program => exact ⟨trivial, hobeys⟩
  | perform reply _ ih =>
    obtain ⟨hpermitted, hrest⟩ := ih (hobeys.2 reply hoffered.1) hoffered.2
    exact ⟨⟨hobeys.1, hpermitted⟩, hrest⟩

end RxOs.Interaction
