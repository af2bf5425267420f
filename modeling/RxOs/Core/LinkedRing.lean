import Mathlib

/-!
# Doubly linked rings

Nodes linked in a circle by a successor and a predecessor function, with the
first and the last node of the circle.  `seek` is the loop that follows one of
the two functions until it is back where it started; `moveFront` unlinks a node
and links it in again as the first one.  On a ring with a known order the loop
finds what a search through the order finds, and moving a node to the front
leaves a ring whose order begins with that node.
-/

namespace RxOs.LinkedRing

open Function

variable {Node : Type*}

@[ext]
structure Links (Node : Type*) where
  next : Node → Node
  prev : Node → Node
  head : Node
  tail : Node

/-- `right` follows `left`. -/
def Links.Linked (links : Links Node) (left right : Node) : Prop :=
  links.next left = right ∧ links.prev right = left

/-- The nodes of `order`, from the head to the tail, form a circle. -/
structure Ring (links : Links Node) (order : List Node) : Prop where
  nodup : order.Nodup
  head_eq : order.head? = some links.head
  tail_eq : order.getLast? = some links.tail
  chain : order.IsChain links.Linked
  closed : links.Linked links.tail links.head

def Links.reverse (links : Links Node) : Links Node where
  next := links.prev
  prev := links.next
  head := links.tail
  tail := links.head

theorem Ring.reverse {links : Links Node} {order : List Node}
    (hring : Ring links order) : Ring links.reverse order.reverse where
  nodup := List.nodup_reverse.mpr hring.nodup
  head_eq := by rw [List.head?_reverse, hring.tail_eq, Links.reverse]
  tail_eq := by rw [List.getLast?_reverse, hring.head_eq, Links.reverse]
  chain := by
    rw [List.isChain_reverse]
    exact hring.chain.imp fun _ _ hlinked => ⟨hlinked.2, hlinked.1⟩
  closed := ⟨hring.closed.2, hring.closed.1⟩

/-! ## Searching -/

/-- Follow `next` from `node` until `hit` holds, or give up before coming back
to `start`. -/
def seek [DecidableEq Node] (next : Node → Node) (hit : Node → Bool)
    (start : Node) : ℕ → Node → Option Node
  | 0, _ => none
  | fuel + 1, node =>
    if hit node then some node
    else if next node = start then none
    else seek next hit start fuel (next node)

section Seek

variable [DecidableEq Node] {links : Links Node}

theorem seek_eq_find (hit : Node → Bool) {start node : Node}
    {rest : List Node} {fuel : ℕ} (hchain : (node :: rest).IsChain links.Linked)
    (hlast : ∀ last ∈ (node :: rest).getLast?, links.next last = start)
    (hstart : start ∉ rest) (hfuel : rest.length < fuel) :
    seek links.next hit start fuel node = (node :: rest).find? hit := by
  induction rest generalizing node fuel with
  | nil =>
    obtain ⟨fuel, rfl⟩ := Nat.exists_eq_add_of_lt hfuel
    have hnext : links.next node = start := hlast node rfl
    cases hnode : hit node with
    | true => simp [seek, hnode]
    | false => simp [seek, hnode, hnext]
  | cons second rest ih =>
    obtain ⟨fuel, rfl⟩ := Nat.exists_eq_add_of_lt hfuel
    obtain ⟨⟨hnext, -⟩, hrest⟩ := List.isChain_cons_cons.mp hchain
    have hsecond : second ≠ start := by
      rintro rfl
      exact hstart List.mem_cons_self
    have hmore : seek links.next hit start (rest.length + 1 + fuel) second =
        (second :: rest).find? hit := by
      refine ih hrest (by simpa using hlast) ?_ (by omega)
      exact fun hmem => hstart (List.mem_cons_of_mem _ hmem)
    cases hnode : hit node with
    | true => simp [seek, hnode]
    | false => simp [seek, hnode, hnext, hsecond, hmore]

/-- Going round the ring from its first node is a search through its order. -/
theorem Ring.seek_eq {order : List Node} (hring : Ring links order)
    (hit : Node → Bool) {fuel : ℕ} (hfuel : order.length ≤ fuel) :
    seek links.next hit links.head fuel links.head = order.find? hit := by
  have hhead := hring.head_eq
  cases order with
  | nil => cases hhead
  | cons node rest =>
    obtain rfl : node = links.head := by simpa using hhead
    refine seek_eq_find hit hring.chain ?_ (List.nodup_cons.mp hring.nodup).1 (by simpa using hfuel)
    intro last hlast
    rw [hring.tail_eq, Option.mem_some_iff] at hlast
    rw [← hlast, hring.closed.1]

end Seek

/-! ## Moving a node to the front -/

/-- Take `node` out and put it in before the first node, with the assignments in
the order in which a program makes them. -/
def Links.moveFront [DecidableEq Node] (links : Links Node) (node : Node) : Links Node :=
  let tail := if links.tail = node then links.prev node else links.tail
  let before := links.prev node
  let after := links.next node
  { next := update (update (update links.next before after)
      node links.head) tail node
    prev := update (update (update links.prev after before) node tail) links.head node
    head := node
    tail := tail }

/-- Links that agree inside a list chain it alike. -/
theorem isChain_congr {links other : Links Node} {order : List Node}
    (hchain : order.IsChain links.Linked)
    (hnext : ∀ node ∈ order.dropLast, other.next node = links.next node)
    (hprev : ∀ node ∈ order.tail, other.prev node = links.prev node) :
    order.IsChain other.Linked := by
  induction order with
  | nil => exact .nil
  | cons first rest ih =>
    cases rest with
    | nil => exact .singleton first
    | cons second rest =>
      obtain ⟨hlinked, hrest⟩ := List.isChain_cons_cons.mp hchain
      refine List.isChain_cons_cons.mpr ⟨⟨?_, ?_⟩, ih hrest ?_ ?_⟩
      · rw [hnext first (by simp), hlinked.1]
      · rw [hprev second (by simp), hlinked.2]
      · intro node hnode
        exact hnext node (by simp [hnode])
      · intro node hnode
        exact hprev node (by simpa using Or.inr hnode)

theorem ne_of_mem_dropLast {order : List Node} {node last : Node}
    (hnodup : order.Nodup) (hlast : order.getLast? = some last)
    (hnode : node ∈ order.dropLast) : node ≠ last := by
  obtain ⟨front, rfl⟩ := List.getLast?_eq_some_iff.mp hlast
  rintro rfl
  rw [List.dropLast_concat] at hnode
  exact List.disjoint_of_nodup_append hnodup hnode List.mem_cons_self

theorem ne_of_mem_tail {order : List Node} {node first : Node}
    (hnodup : order.Nodup) (hfirst : order.head? = some first)
    (hnode : node ∈ order.tail) : node ≠ first := by
  cases order with
  | nil => cases hfirst
  | cons head rest =>
    obtain rfl : head = first := by simpa using hfirst
    rintro rfl
    exact (List.nodup_cons.mp hnodup).1 hnode

section Move

variable [DecidableEq Node] {links : Links Node} {node before after : Node}
variable {left right : List Node}

/-- Moving the last node: only the links at the seam change. -/
theorem Ring.moveFront_last (hring : Ring links (left ++ [node]))
    (hleft : left.head? = some links.head) (hbefore : left.getLast? = some before) :
    Ring (links.moveFront node) (node :: left) := by
  obtain ⟨hchain, -, hseam⟩ := List.isChain_append.mp hring.chain
  have hnodup := hring.nodup
  rw [← List.concat_eq_append, List.nodup_concat] at hnodup
  obtain ⟨hmem, hnodup⟩ := hnodup
  have htail : links.tail = node := by simpa using hring.tail_eq.symm
  have hprev : links.prev node = before := (hseam before hbefore node rfl).2
  have hnext : links.next node = links.head := htail ▸ hring.closed.1
  have hhead : links.head ∈ left := List.mem_of_head? hleft
  have hlast : before ∈ left := List.mem_of_getLast? hbefore
  have hnode : ∀ other ∈ left, other ≠ node := fun other hother heq => hmem (heq ▸ hother)
  have hmoved : links.moveFront node =
      { next := update (update (update links.next before links.head)
          node links.head) before node
        prev := update (update (update links.prev links.head before) node before) links.head node
        head := node
        tail := before } := by simp [Links.moveFront, htail, hprev, hnext]
  rw [hmoved]
  refine ⟨List.nodup_cons.mpr ⟨hmem, hnodup⟩, rfl, ?_, ?_, ?_⟩
  · rw [List.getLast?_cons, hbefore]
    rfl
  · refine List.isChain_cons.mpr ⟨?_, isChain_congr hchain ?_ ?_⟩
    · intro first hfirst
      obtain rfl : links.head = first := by simpa [hleft] using hfirst
      constructor
      · simp [(hnode before hlast).symm]
      · simp
    · intro other hother
      have hne := ne_of_mem_dropLast hnodup hbefore hother
      have hin := hnode other (List.dropLast_subset _ hother)
      simp [hne, hin]
    · intro other hother
      have hne := ne_of_mem_tail hnodup hleft hother
      have hin := hnode other (List.tail_subset _ hother)
      simp [hne, hin]
  · constructor
    · simp
    · simp [(hnode _ hhead).symm]

/-- Moving a node from the middle: its neighbours are joined. -/
theorem Ring.moveFront_inner (hring : Ring links (left ++ node :: after :: right))
    (hleft : left.head? = some links.head) (hbefore : left.getLast? = some before) :
    Ring (links.moveFront node) (node :: (left ++ after :: right)) := by
  obtain ⟨hchain, hrest, hseam⟩ := List.isChain_append.mp hring.chain
  obtain ⟨⟨hnext, -⟩, hright⟩ := List.isChain_cons_cons.mp hrest
  have hperm : (left ++ node :: after :: right).Perm
      (node :: (left ++ after :: right)) := List.perm_middle
  have hnodup := hperm.nodup_iff.mp hring.nodup
  obtain ⟨hmem, hboth⟩ := List.nodup_cons.mp hnodup
  obtain ⟨hnodupLeft, hnodupRight, hdisjoint⟩ := List.nodup_append'.mp hboth
  have htail : (after :: right).getLast? = some links.tail := by simpa using hring.tail_eq
  have hprev : links.prev node = before := (hseam before hbefore node rfl).2
  have hhead : links.head ∈ left := List.mem_of_head? hleft
  have hlast : before ∈ left := List.mem_of_getLast? hbefore
  have hend : links.tail ∈ after :: right := List.mem_of_getLast? htail
  have hnode : ∀ other ∈ left ++ after :: right, other ≠ node :=
    fun other hother heq => hmem (heq ▸ hother)
  have hapart : ∀ one ∈ left, ∀ other ∈ after :: right, one ≠ other := by
    rintro one hone other hother rfl
    exact hdisjoint hone hother
  have hnodeTail : links.tail ≠ node := hnode _ (List.mem_append_right _ hend)
  have hmoved : links.moveFront node =
      { next := update (update (update links.next before after)
          node links.head) links.tail node
        prev := update (update (update links.prev after before) node links.tail) links.head node
        head := node
        tail := links.tail } := by simp [Links.moveFront, hnodeTail, hprev, hnext]
  rw [hmoved]
  refine ⟨hnodup, rfl, ?_, ?_, ?_⟩
  · rw [List.getLast?_cons, List.getLast?_append, htail]
    rfl
  · refine List.isChain_cons.mpr ⟨?_, List.isChain_append.mpr ⟨?_, ?_, ?_⟩⟩
    · intro first hfirst
      obtain rfl : links.head = first := by simpa [List.head?_append, hleft] using hfirst
      constructor
      · simp [hnodeTail.symm]
      · simp
    · refine isChain_congr hchain ?_ ?_
      · intro other hother
        have hin := List.dropLast_subset _ hother
        have hne := ne_of_mem_dropLast hnodupLeft hbefore hother
        simp [hne, hnode other (List.mem_append_left _ hin), hapart other hin _ hend]
      · intro other hother
        have hin := List.tail_subset _ hother
        have hne := ne_of_mem_tail hnodupLeft hleft hother
        simp [hne, hnode other (List.mem_append_left _ hin),
          hapart other hin after List.mem_cons_self]
    · refine isChain_congr hright ?_ ?_
      · intro other hother
        have hin := List.dropLast_subset _ hother
        have hne := ne_of_mem_dropLast hnodupRight htail hother
        simp [hne, hnode other (List.mem_append_right _ hin), (hapart before hlast other hin).symm]
      · intro other hother
        have hin := List.tail_subset _ hother
        have hne := ne_of_mem_tail hnodupRight rfl hother
        simp [hne, hnode other (List.mem_append_right _ hin), (hapart _ hhead other hin).symm]
    · intro last hlast' first hfirst
      obtain rfl : before = last := by simpa [hbefore] using hlast'
      obtain rfl : after = first := by simpa using hfirst
      constructor
      · simp [hapart before hlast _ hend, hnode before (List.mem_append_left _ hlast)]
      · simp [(hapart _ hhead after List.mem_cons_self).symm,
          hnode after (List.mem_append_right _ List.mem_cons_self)]
  · constructor
    · simp
    · simp [(hnode _ (List.mem_append_left _ hhead)).symm]

/-- A node other than the first, moved to the front of the order. -/
theorem Ring.moveFront (hring : Ring links (left ++ node :: right)) (hnode : node ≠ links.head) :
    Ring (links.moveFront node) (node :: (left ++ right)) := by
  have hhead := hring.head_eq
  have hleft : left.head? = some links.head := by
    cases left with
    | nil => exact absurd (by simpa using hhead) hnode
    | cons first rest => simpa using hhead
  obtain ⟨before, hbefore⟩ : ∃ before, left.getLast? = some before := by
    cases left with
    | nil => cases hleft
    | cons first rest => exact ⟨_, List.getLast?_eq_some_getLast (by simp)⟩
  cases right with
  | nil => simpa using hring.moveFront_last hleft hbefore
  | cons after right => exact hring.moveFront_inner hleft hbefore

end Move

end RxOs.LinkedRing
