import Mathlib

/-!
# Sequential programs with state and early stops

Kernel code is translated into the state monad with exceptions of the standard
library: a program either returns a value or stops, and in both cases leaves a
state behind.  `Ensures` is its weakest precondition, with one postcondition for
each of the two ways to end.
-/

namespace RxOs.Exec

variable {Cause State Value Result : Type}

/-- From `state`, `program` returns with `returned`, or stops with `stopped`. -/
def Ensures (program : EStateM Cause State Value) (state : State)
    (returned : Value → State → Prop) (stopped : Cause → State → Prop) : Prop :=
  match program state with
  | .ok value next => returned value next
  | .error cause next => stopped cause next

variable {program : EStateM Cause State Value} {state next : State}
variable {returned : Value → State → Prop} {stopped : Cause → State → Prop}

theorem ensures_of_eq_ok {value : Value} (hrun : program state = .ok value next)
    (hpost : returned value next) : Ensures program state returned stopped := by
  rw [Ensures, hrun]
  exact hpost

theorem ensures_any : Ensures program state (fun _ _ => True) fun _ _ => True := by
  unfold Ensures
  split <;> trivial

theorem Ensures.eq_ok {value : Value} (hensures : Ensures program state returned stopped)
    (hrun : program state = .ok value next) : returned value next := by
  rwa [Ensures, hrun] at hensures

theorem Ensures.eq_error {cause : Cause} (hensures : Ensures program state returned stopped)
    (hrun : program state = .error cause next) : stopped cause next := by
  rwa [Ensures, hrun] at hensures

/-- The rule of consequence. -/
theorem Ensures.imp {returned' : Value → State → Prop} {stopped' : Cause → State → Prop}
    (hensures : Ensures program state returned stopped)
    (hreturned : ∀ value next, returned value next → returned' value next)
    (hstopped : ∀ cause next, stopped cause next → stopped' cause next) :
    Ensures program state returned' stopped' := by
  unfold Ensures at *
  cases hrun : program state with
  | ok value next =>
    rw [hrun] at hensures
    exact hreturned value next hensures
  | error cause next =>
    rw [hrun] at hensures
    exact hstopped cause next hensures

theorem Ensures.imp_returned {returned' : Value → State → Prop}
    (hensures : Ensures program state returned stopped)
    (hreturned : ∀ value next, returned value next → returned' value next) :
    Ensures program state returned' stopped :=
  hensures.imp hreturned fun _ _ hstopped => hstopped

/-- Two facts about one execution. -/
theorem Ensures.and {returned' : Value → State → Prop} {stopped' : Cause → State → Prop}
    (hleft : Ensures program state returned stopped)
    (hright : Ensures program state returned' stopped') :
    Ensures program state (fun value next => returned value next ∧ returned' value next)
      (fun cause next => stopped cause next ∧ stopped' cause next) := by
  cases hrun : program state with
  | ok value next => exact ensures_of_eq_ok hrun ⟨hleft.eq_ok hrun, hright.eq_ok hrun⟩
  | error cause next =>
    rw [Ensures, hrun]
    exact ⟨hleft.eq_error hrun, hright.eq_error hrun⟩

theorem Ensures.exists_ok (hensures : Ensures program state returned fun _ _ => False) :
    ∃ value next, program state = .ok value next ∧ returned value next := by
  cases hrun : program state with
  | ok value next => exact ⟨value, next, rfl, hensures.eq_ok hrun⟩
  | error cause next => exact (hensures.eq_error hrun).elim

@[simp]
theorem ensures_pure (value : Value) :
    Ensures (pure value : EStateM Cause State Value) state returned stopped ↔
      returned value state := Iff.rfl

@[simp]
theorem ensures_throw (cause : Cause) :
    Ensures (throw cause : EStateM Cause State Value) state returned stopped ↔
      stopped cause state := Iff.rfl

@[simp]
theorem ensures_get {returned : State → State → Prop} :
    Ensures (get : EStateM Cause State State) state returned stopped ↔
      returned state state := Iff.rfl

@[simp]
theorem ensures_set {returned : PUnit → State → Prop} :
    Ensures (set next : EStateM Cause State PUnit) state returned stopped ↔
      returned ⟨⟩ next := Iff.rfl

@[simp]
theorem ensures_modify {returned : PUnit → State → Prop} (change : State → State) :
    Ensures (modify change : EStateM Cause State PUnit) state returned
      stopped ↔ returned ⟨⟩ (change state) := Iff.rfl

theorem ensures_bind {rest : Value → EStateM Cause State Result}
    {returned : Result → State → Prop} :
    Ensures (program >>= rest) state returned stopped ↔ Ensures program state
        (fun value next => Ensures (rest value) next returned stopped)
        stopped := by
  change Ensures (EStateM.bind program rest) _ _ _ ↔ _
  unfold Ensures EStateM.bind
  cases program state <;> rfl

theorem Ensures.bind {rest : Value → EStateM Cause State Result}
    {middle : Value → State → Prop} {returned : Result → State → Prop}
    (hfirst : Ensures program state middle stopped) (hrest : ∀ value next, middle value next →
      Ensures (rest value) next returned stopped) :
    Ensures (program >>= rest) state returned stopped :=
  ensures_bind.mpr (hfirst.imp_returned hrest)

theorem bind_of_eq_ok {rest : Value → EStateM Cause State Result}
    {value : Value} (hfirst : program state = .ok value next) :
    (program >>= rest) state = rest value next := by
  change EStateM.bind program rest state = _
  unfold EStateM.bind
  rw [hfirst]

theorem bind_eq_ok {rest : Value → EStateM Cause State Result} {result : Result} :
    (program >>= rest) state = .ok result next ↔ ∃ value middle, program state = .ok value middle ∧
        rest value middle = .ok result next := by
  change EStateM.bind program rest state = _ ↔ _
  unfold EStateM.bind
  cases program state <;> simp

theorem ensures_fmap {change : Value → Result} {returned : Result → State → Prop} :
    Ensures (change <$> program) state returned stopped ↔
      Ensures program state (fun value next => returned (change value) next)
        stopped := by
  change Ensures (EStateM.map change program) _ _ _ ↔ _
  unfold Ensures EStateM.map
  cases program state <;> rfl

theorem ensures_ite {condition : Prop} [Decidable condition]
    {left right : EStateM Cause State Value} :
    Ensures (if condition then left else right) state returned stopped ↔
      (condition → Ensures left state returned stopped) ∧
        (¬condition → Ensures right state returned stopped) := by split <;> simp [*]

/-! ## Programs on a part of the state -/

section Zoom

variable {Part : Type} {look : State → Part} {put : Part → State → State}

def zoom (look : State → Part) (put : Part → State → State)
    (program : EStateM Cause Part Value) : EStateM Cause State Value :=
  fun state =>
    match program (look state) with
    | .ok value part => .ok value (put part state)
    | .error cause part => .error cause (put part state)

theorem ensures_zoom {program : EStateM Cause Part Value} :
    Ensures (zoom look put program) state returned stopped ↔ Ensures program (look state)
        (fun value part => returned value (put part state))
        (fun cause part => stopped cause (put part state)) := by
  unfold Ensures zoom
  cases program (look state) <;> rfl

end Zoom

/-! ## Guarantees -/

/-- What some code can be relied on for: a relation between the states before
and after it, and the causes for which it may stop. -/
structure Guarantee (State Cause : Type) where
  rel : State → State → Prop
  stops : State → Cause → Prop
  refl : ∀ state, rel state state
  trans : ∀ {first middle last}, rel first middle → rel middle last → rel first last
  stable : ∀ {first middle cause}, rel first middle → stops middle cause → stops first cause

def Guarantees (guarantee : Guarantee State Cause) (program : EStateM Cause State Value) : Prop :=
  ∀ state, Ensures program state (fun _ next => guarantee.rel state next)
    fun cause next => guarantee.rel state next ∧ guarantee.stops state cause

section Guarantees

variable {guarantee : Guarantee State Cause}

theorem guarantees_pure (value : Value) :
    Guarantees guarantee (pure value : EStateM Cause State Value) :=
  guarantee.refl

theorem guarantees_throw {cause : Cause} (hstops : ∀ state, guarantee.stops state cause) :
    Guarantees guarantee (throw cause : EStateM Cause State Value) :=
  fun state => ⟨guarantee.refl state, hstops state⟩

theorem guarantees_get : Guarantees guarantee (get : EStateM Cause State State) :=
  guarantee.refl

theorem guarantees_modify {change : State → State}
    (hrel : ∀ state, guarantee.rel state (change state)) :
    Guarantees guarantee (modify change : EStateM Cause State PUnit) :=
  hrel

/-- What the parts guarantee, their composition does. -/
theorem Guarantees.bind {rest : Value → EStateM Cause State Result}
    (hfirst : Guarantees guarantee program) (hrest : ∀ value, Guarantees guarantee (rest value)) :
    Guarantees guarantee (program >>= rest) := by
  intro state
  refine Ensures.bind (hfirst state) ?_
  intro value middle hmiddle
  refine (hrest value middle).imp ?_ ?_
  · intro result last hlast
    exact guarantee.trans hmiddle hlast
  · rintro cause last ⟨hlast, hstops⟩
    exact ⟨guarantee.trans hmiddle hlast, guarantee.stable hmiddle hstops⟩

theorem Guarantees.ite {condition : Prop} [Decidable condition]
    {left right : EStateM Cause State Value} (hleft : Guarantees guarantee left)
    (hright : Guarantees guarantee right) :
    Guarantees guarantee (if condition then left else right) := by
  split
  · exact hleft
  · exact hright

theorem guarantees_forM {Item : Type} {body : Item → EStateM Cause State PUnit}
    (hbody : ∀ item, Guarantees guarantee (body item)) (items : List Item) :
    Guarantees guarantee (items.forM body) := by
  induction items with
  | nil => exact guarantees_pure _
  | cons item items ih => exact Guarantees.bind (hbody item) fun _ => ih

def Guarantee.comap {Part : Type} (look : State → Part)
    (guarantee : Guarantee Part Cause) : Guarantee State Cause where
  rel := fun first last => guarantee.rel (look first) (look last)
  stops := fun state cause => guarantee.stops (look state) cause
  refl := fun state => guarantee.refl (look state)
  trans := guarantee.trans
  stable := guarantee.stable

/-- A program on a part of the state guarantees there what it guarantees. -/
theorem Guarantees.zoom {Part : Type} {look : State → Part}
    {put : Part → State → State} {guarantee : Guarantee Part Cause}
    {program : EStateM Cause Part Value} (hput : ∀ part state, look (put part state) = part)
    (hprogram : Guarantees guarantee program) :
    Guarantees (guarantee.comap look) (zoom look put program) := by
  intro state
  refine ensures_zoom.mpr ((hprogram (look state)).imp ?_ ?_)
  · intro value part hrel
    change guarantee.rel (look state) (look (put part state))
    rwa [hput]
  · rintro cause part ⟨hrel, hstops⟩
    refine ⟨?_, hstops⟩
    change guarantee.rel (look state) (look (put part state))
    rwa [hput]

end Guarantees

end RxOs.Exec
