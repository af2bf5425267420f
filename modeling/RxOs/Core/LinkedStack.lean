import Mathlib

/-!
# Linked stacks

A stack whose nodes hold the link to the node below.  Pushing writes the link
of the new top, popping clears the link of the old one, and links of nodes
outside the stack do not matter.
-/

namespace RxOs.LinkedStack

open Function

variable {Node : Type*} {next : Node → Option Node} {head : Option Node}
variable {node : Node} {nodes : List Node}

/-- The links lead from `head` through the nodes of the list and end there. -/
def Chain (next : Node → Option Node) (head : Option Node) :
    List Node → Prop
  | [] => head = none
  | node :: nodes => head = some node ∧ Chain next (next node) nodes

/-- There is only one list to walk through. -/
theorem Chain.unique {others : List Node} (hchain : Chain next head nodes)
    (hother : Chain next head others) : others = nodes := by
  induction nodes generalizing head others with
  | nil =>
    obtain rfl : head = none := hchain
    cases others with
    | nil => rfl
    | cons other others => cases hother.1
  | cons node nodes ih =>
    obtain ⟨rfl, hrest⟩ := hchain
    cases others with
    | nil => cases hother
    | cons other others =>
      obtain ⟨hsame, htail⟩ := hother
      cases hsame
      rw [ih hrest htail]

/-- A link outside the stack may be overwritten. -/
theorem Chain.update [DecidableEq Node] (hchain : Chain next head nodes)
    (hnode : node ∉ nodes) (link : Option Node) : Chain (update next node link) head nodes := by
  induction nodes generalizing head with
  | nil => exact hchain
  | cons first nodes ih =>
    rw [List.mem_cons, not_or] at hnode
    refine ⟨hchain.1, ?_⟩
    rw [update_of_ne (Ne.symm hnode.1)]
    exact ih hchain.2 hnode.2

theorem Chain.push [DecidableEq Node] (hchain : Chain next head nodes) (hnode : node ∉ nodes) :
    Chain (Function.update next node head) (some node) (node :: nodes) := by
  refine ⟨rfl, ?_⟩
  rw [update_self]
  exact hchain.update hnode head

end RxOs.LinkedStack
