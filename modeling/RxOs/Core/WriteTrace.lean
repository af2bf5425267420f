import Mathlib

/-!
# Write traces, crashes and recovery

A store maps addresses to contents and is changed by atomic writes.  A
procedure that may be interrupted is described by the list of its writes: the
states a crash can leave behind are the results of the prefixes of that list.
Recovery is such a procedure itself, so a crash may interrupt it too.
-/

namespace RxOs.WriteTrace

open Function

variable {Address Contents : Type*} [DecidableEq Address]

def applyWrites (writes : List (Address × Contents))
    (store : Address → Contents) : Address → Contents :=
  writes.foldl (fun current write => update current write.1 write.2) store

@[simp]
theorem applyWrites_nil (store : Address → Contents) :
    applyWrites [] store = store := rfl

@[simp]
theorem applyWrites_cons (write : Address × Contents)
    (writes : List (Address × Contents)) (store : Address → Contents) :
    applyWrites (write :: writes) store = applyWrites writes (update store write.1 write.2) := rfl

theorem applyWrites_append (first second : List (Address × Contents)) (store : Address → Contents) :
    applyWrites (first ++ second) store = applyWrites second (applyWrites first store) := by
  simp [applyWrites, List.foldl_append]

/-- An address that no write names keeps its contents. -/
theorem applyWrites_off {writes : List (Address × Contents)}
    {address : Address} (hoff : ∀ write ∈ writes, write.1 ≠ address) (store : Address → Contents) :
    applyWrites writes store address = store address := by
  induction writes generalizing store with
  | nil => rfl
  | cons write writes ih =>
    rw [applyWrites_cons, ih fun other hother => hoff other (List.mem_cons_of_mem _ hother)]
    exact update_of_ne (hoff write List.mem_cons_self).symm _ _

/-- The result at an address depends on the old contents there only when no
write names the address. -/
theorem applyWrites_congr {writes : List (Address × Contents)}
    {left right : Address → Contents} {address : Address}
    (hcovered : (∃ write ∈ writes, write.1 = address) ∨
      left address = right address) :
    applyWrites writes left address = applyWrites writes right address := by
  induction writes generalizing left right with
  | nil =>
    rcases hcovered with ⟨write, hwrite, _⟩ | heq
    · simp at hwrite
    · exact heq
  | cons write writes ih =>
    rw [applyWrites_cons, applyWrites_cons]
    apply ih
    by_cases hhead : write.1 = address
    · right
      subst hhead
      simp
    · rcases hcovered with ⟨other, hother, haddress⟩ | heq
      · left
        rcases List.mem_cons.mp hother with rfl | htail
        · exact absurd haddress hhead
        · exact ⟨other, htail, haddress⟩
      · right
        rw [update_of_ne (Ne.symm hhead), update_of_ne (Ne.symm hhead), heq]

/-- With one write per address, each address receives the contents its write
carries. -/
theorem applyWrites_of_mem {writes : List (Address × Contents)}
    (hnodup : (writes.map Prod.fst).Nodup) (write : Address × Contents)
    (hmem : write ∈ writes) (store : Address → Contents) :
    applyWrites writes store write.1 = write.2 := by
  induction writes generalizing store with
  | nil => simp at hmem
  | cons head tail ih =>
    rw [List.map_cons, List.nodup_cons] at hnodup
    rcases List.mem_cons.mp hmem with rfl | htail
    · rw [applyWrites_cons, applyWrites_off]
      · exact update_self _ _ _
      · intro other hother haddress
        exact hnodup.1 (List.mem_map.mpr ⟨other, hother, haddress⟩)
    · exact ih hnodup.2 htail _

/-! ## Recovery that may itself be interrupted -/

variable {State : Type*}

/-- `RecoversTo boot disk state`: booting from `disk`, crashing any number of
times during the recovery writes and booting again, ends in the running system
`state`.  A boot reports its writes and the system it starts. -/
inductive RecoversTo
    (boot : (Address → Contents) → Option (List (Address × Contents) × State)) :
    (Address → Contents) → State → Prop
  | finish {disk : Address → Contents} {writes : List (Address × Contents)}
      {state : State} (hboot : boot disk = some (writes, state)) :
      RecoversTo boot disk state
  | crash {disk : Address → Contents} {writes : List (Address × Contents)}
      {lost state : State} (count : ℕ) (hboot : boot disk = some (writes, lost))
      (hretry : RecoversTo boot (applyWrites (writes.take count) disk) state) :
      RecoversTo boot disk state

/-- A property of disks that every prefix of a recovery keeps holds at each
retry, so what one complete recovery establishes from it holds at the end. -/
theorem RecoversTo.induction_invariant
    {boot : (Address → Contents) → Option (List (Address × Contents) × State)}
    {invariant : (Address → Contents) → Prop} {done : State → Prop}
    (hstep : ∀ disk writes state, invariant disk → boot disk = some (writes, state) →
      (∀ count, invariant (applyWrites (writes.take count) disk)) ∧ done state)
    {disk : Address → Contents} {state : State}
    (hrecovers : RecoversTo boot disk state) (hdisk : invariant disk) : done state := by
  induction hrecovers with
  | finish hboot => exact (hstep _ _ _ hdisk hboot).2
  | crash count hboot _ ih => exact ih ((hstep _ _ _ hdisk hboot).1 count)

end RxOs.WriteTrace
