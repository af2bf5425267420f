import RxOs.Core.LinkedStack
import RxOs.Core.Transition
import RxOs.Memory.Frames

/-!
# The page allocator

`LinkedListAllocator` keeps its free pages on a list that is threaded through
the pages themselves, and a count of references for every page.  The pages that
are not free belong to their owners, who may write to them as they like.
-/

namespace RxOs.PageAllocator

open Function Exec LinkedStack Transition PageTable
open Frames (npages)

def kernelBase : ℕ := 2147483648

def physTop : ℕ := kernelBase + npages * pgSize

def countLen : ℕ := (physTop - kernelBase) / pgSize

/-- The head of the list and the counts.  `next` is memory: the word at the
address of a page, read as a link. -/
structure Allocator where
  head : Option ℕ
  count : ℕ → ℤ
  next : ℕ → Option ℕ

inductive Panic
  | tooLarge
  | subtract
  | index
  | overflow
  deriving DecidableEq, Repr

abbrev AllocM := EStateM Panic Allocator

/-- The index of a page in the array of counts, `(pa - KERNEL_BASE) / PGSIZE`. -/
def slotOf (addr : ℕ) : ℕ := (addr - kernelBase) / pgSize

def countIndex (addr : ℕ) : AllocM ℕ :=
  if addr < kernelBase then throw .subtract
  else if countLen ≤ slotOf addr then throw .index
  else return slotOf addr

/-- Add to a count, an `i32`. -/
def changeCount (index : ℕ) (change : ℤ) : AllocM ℤ := do
  let allocator ← get
  let value := allocator.count index + change
  if value < -2147483648 ∨ 2147483647 < value then throw .overflow
  else do
    set { allocator with count := update allocator.count index value }
    return value

/-- `LinkedListAllocator::init`, over the pages from the end of the kernel to
`heapEnd`. -/
def init (kernelEnd heapEnd : ℕ) (allocator : Allocator) : Allocator :=
  let heapStart := pageRoundUp kernelEnd
  ((List.range ((heapEnd - heapStart + pgSize - 1) / pgSize)).map (heapStart + pgSize * ·)).foldl
      (fun allocator start => { allocator with
        head := some start
        next := update allocator.next start allocator.head })
      { allocator with head := none }

/-- `alloc`; no page is the null pointer. -/
def alloc (size : ℕ) : AllocM (Option ℕ) := do
  if pgSize < size then throw .tooLarge
  else do
    let allocator ← get
    match allocator.head with
    | none => return none
    | some node => do
      let index ← countIndex node
      set { allocator with
        count := update allocator.count index 1
        head := allocator.next node
        next := update allocator.next node none }
      return some node

def dealloc (ptr size : ℕ) : AllocM Unit := do
  if pgSize < size then throw .tooLarge
  else do
    let index ← countIndex ptr
    let value ← changeCount index (-1)
    if value = 0 then
      modify fun allocator => { allocator with
        next := update allocator.next ptr allocator.head
        head := some ptr }
    else return

def addCount (pa : ℕ) : AllocM Unit := do
  let index ← countIndex pa
  let _ ← changeCount index 1
  return

/-! ## The allocator and its clients -/

/-- The allocator, and how many references to each page its clients have. -/
structure System where
  allocator : Allocator
  live : ℕ → ℕ

/-- A call of the allocator, or a client that writes to the first word of a
page. -/
inductive Action
  | alloc (size : ℕ)
  | addCount (pa : ℕ)
  | dealloc (ptr size : ℕ)
  | store (ptr : ℕ) (word : Option ℕ)
  deriving DecidableEq, Repr

/-- What an action does; `none` is a panic. -/
def step (system : System) : Action → Option System
  | .alloc size =>
    match alloc size system.allocator with
    | .ok none allocator => some { system with allocator := allocator }
    | .ok (some page) allocator => some ⟨allocator, update system.live page (system.live page + 1)⟩
    | .error _ _ => none
  | .addCount pa =>
    match addCount pa system.allocator with
    | .ok () allocator =>
      some ⟨allocator, update system.live (pageRoundDown pa) (system.live (pageRoundDown pa) + 1)⟩
    | .error _ _ => none
  | .dealloc ptr size =>
    match dealloc ptr size system.allocator with
    | .ok () allocator => some ⟨allocator, update system.live ptr (system.live ptr - 1)⟩
    | .error _ _ => none
  | .store ptr word =>
    some { system with allocator := { system.allocator with
      next := update system.allocator.next ptr word } }

/-- The clients ask for at most a page, and use only pages they have. -/
def Admitted (system : System) : Action → Prop
  | .alloc size => size ≤ pgSize
  | .addCount pa => 0 < system.live (pageRoundDown pa)
  | .dealloc ptr size => 0 < system.live ptr ∧ size ≤ pgSize
  | .store ptr _ => 0 < system.live ptr

instance (system : System) (action : Action) : Decidable (Admitted system action) := by
  unfold Admitted
  split <;> infer_instance

def allocated (system : System) : Action → Option ℕ
  | .alloc size =>
    match alloc size system.allocator with
    | .ok page _ => page
    | .error _ _ => none
  | _ => none

def panicOf (system : System) : Action → Option Panic
  | .alloc size =>
    match alloc size system.allocator with
    | .ok _ _ => none
    | .error panic _ => some panic
  | .addCount pa =>
    match addCount pa system.allocator with
    | .ok _ _ => none
    | .error panic _ => some panic
  | .dealloc ptr size =>
    match dealloc ptr size system.allocator with
    | .ok _ _ => none
    | .error panic _ => some panic
  | .store _ _ => none

/-- The pages that `init` finds. -/
def heapPages (kernelEnd heapEnd : ℕ) : List ℕ :=
  (List.range ((heapEnd - pageRoundUp kernelEnd + pgSize - 1) / pgSize)).map
    (pageRoundUp kernelEnd + pgSize * ·)

/-- The system after `init`; memory may hold anything before. -/
def boot (kernelEnd heapEnd : ℕ) (memory : ℕ → Option ℕ) : System where
  allocator := init kernelEnd heapEnd { head := none, count := fun _ => 0, next := memory }
  live := fun _ => 0

/-! ## Pages -/

structure Page (addr : ℕ) : Prop where
  low : kernelBase ≤ addr
  high : addr < physTop
  aligned : pgSize ∣ addr

theorem slotOf_lt {addr : ℕ} (hlow : kernelBase ≤ addr)
    (hhigh : addr < physTop) : slotOf addr < countLen := by
  have hbase : kernelBase = 2147483648 := rfl
  have htop : physTop = 6442450944 := rfl
  have hlen : countLen = 1048576 := rfl
  rw [slotOf, show pgSize = 4096 from rfl]
  omega

theorem countIndex_eq {addr : ℕ} (hlow : kernelBase ≤ addr)
    (hhigh : addr < physTop) (allocator : Allocator) :
    countIndex addr allocator = .ok (slotOf addr) allocator := by
  rw [countIndex, if_neg (by omega), if_neg (slotOf_lt hlow hhigh).not_ge]
  rfl

theorem slotOf_inj {left right : ℕ} (hleft : Page left) (hright : Page right)
    (hslot : slotOf left = slotOf right) : left = right := by
  have hbase : kernelBase = 2147483648 := rfl
  obtain ⟨hlow, -, haligned⟩ := hleft
  obtain ⟨hlow', -, haligned'⟩ := hright
  rw [slotOf, slotOf] at hslot
  rw [show pgSize = 4096 from rfl] at *
  omega

theorem update_slotOf {page other : ℕ} (hpage : Page page) (hother : Page other)
    (count : ℕ → ℤ) (value : ℤ) : update count (slotOf page) value (slotOf other) =
      if other = page then value else count (slotOf other) := by
  rw [update_apply]
  exact if_congr ⟨slotOf_inj hother hpage, congrArg slotOf⟩ rfl rfl

theorem slotOf_pageRoundDown {addr : ℕ} (hpage : Page (pageRoundDown addr)) :
    kernelBase ≤ addr ∧ addr < physTop ∧ slotOf addr = slotOf (pageRoundDown addr) := by
  have hbase : kernelBase = 2147483648 := rfl
  have htop : physTop = 6442450944 := rfl
  obtain ⟨hlow, hhigh, -⟩ := hpage
  rw [slotOf, slotOf]
  rw [pageRoundDown, show pgSize = 4096 from rfl] at *
  omega

theorem page_of_mem_heapPages {kernelEnd heapEnd page : ℕ}
    (hlow : kernelBase ≤ kernelEnd) (hhigh : heapEnd ≤ physTop)
    (hpage : page ∈ heapPages kernelEnd heapEnd) : Page page := by
  rw [heapPages, List.mem_map] at hpage
  obtain ⟨index, hindex, rfl⟩ := hpage
  rw [List.mem_range] at hindex
  have hround : pageRoundUp kernelEnd = (kernelEnd + pgSize - 1) / pgSize * pgSize :=
    rfl
  rw [show pgSize = 4096 from rfl] at *
  refine ⟨by omega, by omega, ?_⟩
  rw [show pgSize = 4096 from rfl]
  omega

theorem nodup_heapPages (kernelEnd heapEnd : ℕ) : (heapPages kernelEnd heapEnd).Nodup := by
  refine List.Nodup.map ?_ List.nodup_range
  intro left right hsame
  have hsame' : pageRoundUp kernelEnd + pgSize * left =
      pageRoundUp kernelEnd + pgSize * right := hsame
  rw [show pgSize = 4096 from rfl] at hsame'
  omega

attribute [irreducible] slotOf

/-! ## The invariant -/

/-- The list that the links lead through has the heap pages without a reference
on it, once each, and the counts are the numbers of references. -/
structure Consistent (heap : List ℕ) (system : System) (free : List ℕ) :
    Prop where
  chain : Chain system.allocator.next system.allocator.head free
  nodup : free.Nodup
  free_heap : ∀ page ∈ free, page ∈ heap
  free_iff : ∀ page ∈ heap, page ∈ free ↔ system.live page = 0
  live_heap : ∀ page, 0 < system.live page → page ∈ heap
  counted : ∀ page ∈ heap, system.allocator.count (slotOf page) = system.live page
  bounded : ∀ page, system.live page ≤ 2147483647

/-- The loop of `init` pushes the pages one after the other. -/
theorem chain_init (pages : List ℕ) (allocator : Allocator)
    (nodes : List ℕ) (hchain : Chain allocator.next allocator.head nodes)
    (hnodup : (pages.reverse ++ nodes).Nodup) :
    let final := pages.foldl (fun allocator start =>
      { allocator with
        head := some start
        next := update allocator.next start allocator.head }) allocator
    Chain final.next final.head (pages.reverse ++ nodes) ∧ final.count = allocator.count := by
  induction pages generalizing allocator nodes with
  | nil => exact ⟨hchain, rfl⟩
  | cons page pages ih =>
    rw [List.reverse_cons, List.append_assoc, List.singleton_append] at hnodup ⊢
    have hpage : page ∉ nodes := (List.nodup_cons.mp (List.nodup_append.mp hnodup).2.1).1
    exact ih _ (page :: nodes) (hchain.push hpage) hnodup

theorem chain_boot (kernelEnd heapEnd : ℕ) (memory : ℕ → Option ℕ) :
    Chain (boot kernelEnd heapEnd memory).allocator.next
        (boot kernelEnd heapEnd memory).allocator.head (heapPages kernelEnd heapEnd).reverse ∧
      (boot kernelEnd heapEnd memory).allocator.count = fun _ => 0 := by
  have hnodup := List.nodup_reverse.mpr (nodup_heapPages kernelEnd heapEnd)
  have hinit := chain_init (heapPages kernelEnd heapEnd)
    { head := none, count := fun _ => 0, next := memory } [] rfl (by rwa [List.append_nil])
  rwa [List.append_nil] at hinit

theorem consistent_boot (kernelEnd heapEnd : ℕ) (memory : ℕ → Option ℕ) :
    Consistent (heapPages kernelEnd heapEnd) (boot kernelEnd heapEnd memory)
      (heapPages kernelEnd heapEnd).reverse := by
  obtain ⟨hchain, hcount⟩ := chain_boot kernelEnd heapEnd memory
  refine ⟨hchain, List.nodup_reverse.mpr (nodup_heapPages kernelEnd heapEnd), ?_, ?_, ?_, ?_,
    fun _ => Nat.zero_le _⟩
  · intro page hpage
    exact List.mem_reverse.mp hpage
  · intro page hpage
    exact iff_of_true (List.mem_reverse.mpr hpage) rfl
  · intro page hlive
    exact absurd hlive (Nat.lt_irrefl 0)
  · intro page _
    exact congrFun hcount (slotOf page)

section Calls

variable {heap free : List ℕ} {system : System} {page : ℕ}

/-- A call of `alloc` that is not too large takes the first page of the list,
if there is one. -/
theorem ensures_alloc {allocator : Allocator} (hchain : Chain allocator.next allocator.head free)
    (hpages : ∀ page ∈ free, Page page) {size : ℕ} (hsize : size ≤ pgSize) :
    Ensures (alloc size) allocator
      (fun result next => (result = none ∧ next = allocator ∧ free = []) ∨
        ∃ page rest, result = some page ∧ free = page :: rest ∧
          next = { count := update allocator.count (slotOf page) 1
                   head := allocator.next page
                   next := update allocator.next page none })
      (fun _ _ => False) := by
  rw [alloc, if_neg hsize.not_gt, ensures_bind, ensures_get]
  cases free with
  | nil =>
    have hhead : allocator.head = none := hchain
    simp only [hhead, ensures_pure]
    exact Or.inl ⟨trivial, trivial, trivial⟩
  | cons page rest =>
    have hpage := hpages page List.mem_cons_self
    have hindex := countIndex_eq hpage.low hpage.high allocator
    simp only [hchain.1, ensures_bind]
    refine ensures_of_eq_ok hindex ?_
    simp only [ensures_set, ensures_pure]
    exact Or.inr ⟨page, rest, rfl, rfl, rfl⟩

/-- Changing a count by one goes wrong only at the ends of `i32`. -/
theorem ensures_changeCount (index : ℕ) (change : ℤ) (allocator : Allocator) :
    Ensures (changeCount index change) allocator
      (fun value next => value = allocator.count index + change ∧ value ≤ 2147483647 ∧
        next = { allocator with
          count := update allocator.count index value })
      (fun cause _ => cause = .overflow ∧ (allocator.count index + change < -2147483648 ∨
          2147483647 < allocator.count index + change)) := by
  simp only [changeCount, ensures_bind, ensures_get, ensures_ite,
    ensures_throw, ensures_set, ensures_pure]
  refine ⟨fun hrange => ⟨trivial, hrange⟩, fun hrange => ?_⟩
  exact ⟨trivial, by omega, trivial⟩

def Allocator.push (allocator : Allocator) (page : ℕ) : Allocator :=
  { allocator with
    next := update allocator.next page allocator.head
    head := some page }

def Allocator.withCount (allocator : Allocator) (page : ℕ) (value : ℤ) : Allocator :=
  { allocator with count := update allocator.count (slotOf page) value }

/-- `dealloc` takes one from the count and puts the page on the list when
nothing is left. -/
theorem ensures_dealloc (hpage : Page page) {size : ℕ} (hsize : size ≤ pgSize)
    {allocator : Allocator} {value : ℕ} (hvalue : value < 2147483647)
    (hcount : allocator.count (slotOf page) = value + 1) :
    Ensures (dealloc page size) allocator (fun _ next => next = if value = 0 then
        (allocator.withCount page value).push page
        else allocator.withCount page value)
      (fun _ _ => False) := by
  have hindex := countIndex_eq hpage.low hpage.high allocator
  have hminus : allocator.count (slotOf page) + -1 = value := by omega
  rw [dealloc, if_neg hsize.not_gt, ensures_bind]
  refine ensures_of_eq_ok hindex ?_
  rw [ensures_bind]
  refine (ensures_changeCount _ _ _).imp ?_ ?_
  · rintro _ next ⟨rfl, -, rfl⟩
    rw [hminus, ensures_ite, ensures_modify]
    constructor
    · intro hzero
      rw [if_pos (Int.natCast_eq_zero.mp hzero)]
      rfl
    · intro hzero
      rw [ensures_pure, if_neg (fun h => hzero (Int.natCast_eq_zero.mpr h))]
      rfl
  · rintro _ _ ⟨-, hrange⟩
    rw [hminus] at hrange
    omega

/-- `add_count` adds one to the count, unless it is `i32::MAX`. -/
theorem ensures_addCount {pa : ℕ} (hpage : Page (pageRoundDown pa))
    {allocator : Allocator} {value : ℕ}
    (hcount : allocator.count (slotOf (pageRoundDown pa)) = value) :
    Ensures (addCount pa) allocator (fun _ next => value < 2147483647 ∧
        next = allocator.withCount (pageRoundDown pa) (value + 1 : ℕ))
      (fun cause _ => cause = .overflow ∧ 2147483647 ≤ value) := by
  obtain ⟨hlow, hhigh, hslot⟩ := slotOf_pageRoundDown hpage
  have hindex := countIndex_eq hlow hhigh allocator
  rw [addCount, ensures_bind]
  refine ensures_of_eq_ok hindex ?_
  rw [hslot, ensures_bind]
  refine (ensures_changeCount _ _ _).imp ?_ ?_
  · rintro _ next ⟨rfl, hrange, rfl⟩
    rw [hcount] at hrange
    rw [ensures_pure, hcount]
    exact ⟨by omega, rfl⟩
  · rintro cause _ ⟨hcause, hrange⟩
    rw [hcount] at hrange
    exact ⟨hcause, by omega⟩

/-! ## Steps -/

theorem Consistent.counted_update (hheap : ∀ page ∈ heap, Page page)
    (hconsistent : Consistent heap system free) (hpage : page ∈ heap)
    {amount : ℤ} {value : ℕ} (hamount : amount = value) :
    ∀ other ∈ heap, update system.allocator.count (slotOf page) amount (slotOf other) =
        update system.live page value other := by
  intro other hother
  rw [update_slotOf (hheap page hpage) (hheap other hother), update_apply,
    hconsistent.counted other hother, hamount]
  exact (apply_ite Nat.cast _ _ _).symm

theorem Consistent.live_heap_update (hconsistent : Consistent heap system free)
    (hpage : page ∈ heap) (value : ℕ) :
    ∀ other, 0 < update system.live page value other → other ∈ heap := by
  intro other hlive
  by_cases hsame : other = page
  · rwa [hsame]
  · rw [update_of_ne hsame] at hlive
    exact hconsistent.live_heap other hlive

theorem Consistent.bounded_update (hconsistent : Consistent heap system free)
    (value : ℕ) (hvalue : value ≤ 2147483647) (other : ℕ) :
    update system.live page value other ≤ 2147483647 := by
  by_cases hsame : other = page
  · rwa [hsame, update_self]
  · rw [update_of_ne hsame]
    exact hconsistent.bounded other

theorem Consistent.alloc (hheap : ∀ page ∈ heap, Page page) {rest : List ℕ}
    (hconsistent : Consistent heap system (page :: rest)) :
    system.live page = 0 ∧ Consistent heap
      ⟨{ count := update system.allocator.count (slotOf page) 1
         head := system.allocator.next page
         next := update system.allocator.next page none },
        update system.live page (system.live page + 1)⟩ rest := by
  have hpage := hconsistent.free_heap page List.mem_cons_self
  have hzero := (hconsistent.free_iff page hpage).mp List.mem_cons_self
  obtain ⟨hnode, hnodup⟩ := List.nodup_cons.mp hconsistent.nodup
  obtain ⟨-, hrest⟩ := hconsistent.chain
  rw [hzero, Nat.zero_add]
  refine ⟨rfl, hrest.update hnode none, hnodup, ?_, ?_, ?_, ?_, ?_⟩
  · intro other hother
    exact hconsistent.free_heap other (List.mem_cons_of_mem _ hother)
  · intro other hother
    change other ∈ rest ↔ update system.live page 1 other = 0
    by_cases hsame : other = page
    · rw [hsame, update_self]
      exact iff_of_false hnode (by decide)
    · rw [update_of_ne hsame, ← hconsistent.free_iff other hother,
        List.mem_cons, or_iff_right hsame]
  · exact hconsistent.live_heap_update hpage 1
  · exact hconsistent.counted_update hheap hpage rfl
  · exact hconsistent.bounded_update 1 (by omega)

theorem Consistent.addCount (hheap : ∀ page ∈ heap, Page page)
    (hconsistent : Consistent heap system free) (hpage : page ∈ heap)
    (hlive : 0 < system.live page) (hroom : system.live page < 2147483647) :
    Consistent heap ⟨system.allocator.withCount page (system.live page + 1 : ℕ),
        update system.live page (system.live page + 1)⟩ free := by
  refine ⟨hconsistent.chain, hconsistent.nodup, hconsistent.free_heap, ?_,
    hconsistent.live_heap_update hpage (system.live page + 1),
    hconsistent.counted_update hheap hpage rfl, hconsistent.bounded_update (system.live page + 1)
      (Nat.succ_le_of_lt hroom)⟩
  intro other hother
  change other ∈ free ↔ update system.live page _ other = 0
  by_cases hsame : other = page
  · rw [hsame, update_self, hconsistent.free_iff page hpage]
    omega
  · rw [update_of_ne hsame]
    exact hconsistent.free_iff other hother

theorem Consistent.dealloc (hheap : ∀ page ∈ heap, Page page)
    (hconsistent : Consistent heap system free) (hpage : page ∈ heap)
    {value : ℕ} (hlive : system.live page = value + 1) :
    Consistent heap ⟨if value = 0 then (system.allocator.withCount page value).push page
        else system.allocator.withCount page value, update system.live page (system.live page - 1)⟩
      (if value = 0 then page :: free else free) := by
  have hoff : page ∉ free := by
    rw [hconsistent.free_iff page hpage]
    omega
  have hvalue : value ≤ 2147483647 := by
    have hbounded := hconsistent.bounded page
    omega
  rw [hlive, Nat.add_sub_cancel]
  by_cases hzero : value = 0
  · rw [if_pos hzero, if_pos hzero]
    refine ⟨hconsistent.chain.push hoff, List.nodup_cons.mpr ⟨hoff, hconsistent.nodup⟩, ?_, ?_,
      hconsistent.live_heap_update hpage value, hconsistent.counted_update hheap hpage rfl,
      hconsistent.bounded_update value hvalue⟩
    · intro other hother
      rcases List.mem_cons.mp hother with rfl | hother
      · exact hpage
      · exact hconsistent.free_heap other hother
    · intro other hother
      change other ∈ page :: free ↔ update system.live page value other = 0
      rw [List.mem_cons, hconsistent.free_iff other hother]
      by_cases hsame : other = page
      · rw [hsame, update_self]
        exact iff_of_true (Or.inl rfl) hzero
      · rw [update_of_ne hsame, or_iff_right hsame]
  · rw [if_neg hzero, if_neg hzero]
    refine ⟨hconsistent.chain, hconsistent.nodup, hconsistent.free_heap, ?_,
      hconsistent.live_heap_update hpage value, hconsistent.counted_update hheap hpage rfl,
      hconsistent.bounded_update value hvalue⟩
    intro other hother
    change other ∈ free ↔ update system.live page value other = 0
    by_cases hsame : other = page
    · rw [hsame, update_self]
      exact iff_of_false hoff hzero
    · rw [update_of_ne hsame]
      exact hconsistent.free_iff other hother

theorem Consistent.store (hconsistent : Consistent heap system free)
    (hlive : 0 < system.live page) (word : Option ℕ) :
    Consistent heap
      { system with allocator := { system.allocator with
          next := update system.allocator.next page word } } free := by
  have hoff : page ∉ free := by
    rw [hconsistent.free_iff page (hconsistent.live_heap page hlive)]
    omega
  exact ⟨hconsistent.chain.update hoff word, hconsistent.nodup,
    hconsistent.free_heap, hconsistent.free_iff, hconsistent.live_heap,
    hconsistent.counted, hconsistent.bounded⟩

/-- The references to `page` that an action adds, other than those of `alloc`. -/
def gained (page : ℕ) : Action → ℕ
  | .addCount pa => if pageRoundDown pa = page then 1 else 0
  | _ => 0

/-- The references to `page` that an action gives back. -/
def givenBack (page : ℕ) : Action → ℕ
  | .dealloc ptr _ => if ptr = page then 1 else 0
  | _ => 0

structure Stepped (heap : List ℕ) (system : System) (action : Action)
    (next : System) : Prop where
  consistent : ∃ free, Consistent heap next free
  fresh : ∀ page, allocated system action = some page →
    page ∈ heap ∧ system.live page = 0 ∧ next.live page = 1
  live_eq : ∀ page, allocated system action ≠ some page →
    next.live page + givenBack page action = system.live page + gained page action

/-- An admitted action keeps the allocator consistent, and panics only if it
adds to a count that is `i32::MAX`. -/
theorem stepped (hheap : ∀ page ∈ heap, Page page)
    (hconsistent : Consistent heap system free) {action : Action}
    (hadmitted : Admitted system action) :
    (∃ next, step system action = some next ∧ panicOf system action = none ∧
        Stepped heap system action next) ∨
      step system action = none ∧ panicOf system action = some .overflow := by
  cases action with
  | alloc size =>
    left
    obtain ⟨result, next, hrun, hresult⟩ := (ensures_alloc hconsistent.chain (fun page hpage =>
        hheap page (hconsistent.free_heap page hpage)) hadmitted).exists_ok
    rcases hresult with ⟨rfl, rfl, -⟩ | ⟨page, rest, rfl, rfl, rfl⟩
    · refine ⟨system, by simp only [step, hrun],
        by simp only [panicOf, hrun], ⟨free, hconsistent⟩, ?_, ?_⟩
      · intro page hpage
        simp only [allocated, hrun] at hpage
        cases hpage
      · intro page _
        rfl
    · obtain ⟨hzero, hnext⟩ := hconsistent.alloc hheap
      refine ⟨_, by simp only [step, hrun], by simp only [panicOf, hrun], ⟨rest, hnext⟩, ?_, ?_⟩
      · intro other hother
        simp only [allocated, hrun] at hother
        cases hother
        refine ⟨hconsistent.free_heap page List.mem_cons_self, hzero, ?_⟩
        change update system.live page _ page = 1
        rw [update_self, hzero]
      · intro other hother
        simp only [allocated, hrun] at hother
        change update system.live page _ other + 0 = _
        rw [update_of_ne fun hsame => hother (congrArg some hsame.symm)]
        rfl
  | addCount pa =>
    have hmem := hconsistent.live_heap _ hadmitted
    have hensures := ensures_addCount (hheap _ hmem) (hconsistent.counted _ hmem)
    cases hrun : addCount pa system.allocator with
    | ok value allocator =>
      left
      obtain ⟨hroom, rfl⟩ := hensures.eq_ok hrun
      refine ⟨_, by simp only [step, hrun], by simp only [panicOf, hrun],
        ⟨free, hconsistent.addCount hheap hmem hadmitted hroom⟩,
        nofun, ?_⟩
      intro page _
      change update system.live (pageRoundDown pa) _ page + 0 =
        system.live page + if pageRoundDown pa = page then 1 else 0
      by_cases hsame : pageRoundDown pa = page
      · rw [if_pos hsame, ← hsame, update_self, Nat.add_zero]
      · rw [if_neg hsame, update_of_ne (Ne.symm hsame)]
    | error panic allocator =>
      right
      obtain ⟨rfl, -⟩ := hensures.eq_error hrun
      exact ⟨by simp only [step, hrun], by simp only [panicOf, hrun]⟩
  | dealloc ptr size =>
    left
    obtain ⟨hlive, hsize⟩ := hadmitted
    obtain ⟨value, hvalue⟩ := Nat.exists_eq_succ_of_ne_zero hlive.ne'
    have hmem := hconsistent.live_heap _ hlive
    have hbounded := hconsistent.bounded ptr
    have hcount : system.allocator.count (slotOf ptr) = value + 1 := by
      rw [hconsistent.counted ptr hmem, hvalue]
      rfl
    obtain ⟨_, next, hrun, rfl⟩ := (ensures_dealloc (hheap ptr hmem) hsize
      (by omega) hcount).exists_ok
    refine ⟨_, by simp only [step, hrun], by simp only [panicOf, hrun],
      ⟨_, hconsistent.dealloc hheap hmem hvalue⟩, nofun, ?_⟩
    intro page _
    change update system.live ptr _ page + (if ptr = page then 1 else 0) = system.live page + 0
    by_cases hsame : ptr = page
    · rw [if_pos hsame, ← hsame, update_self]
      omega
    · rw [if_neg hsame, update_of_ne (Ne.symm hsame)]
  | store ptr word =>
    left
    exact ⟨_, rfl, rfl, ⟨free, hconsistent.store hadmitted word⟩, nofun, fun _ _ => rfl⟩

end Calls

/-! ## The frames of the address spaces -/

/-- The allocator behind the frames of a memory: its list leads through the free
frames in their order, and its counts are theirs. -/
structure Backs (allocator : Allocator) (memory : Frames.Memory) : Prop where
  chain : Chain allocator.next allocator.head (memory.free.map (· * pgSize))
  nodup : memory.free.Nodup
  inRange : ∀ frame ∈ memory.free, Frames.InRange frame
  counted : ∀ frame, Frames.InRange frame →
    allocator.count (slotOf (frame * pgSize)) = memory.count frame

section Frames

variable {allocator : Allocator} {memory : Frames.Memory} {frame : ℕ}

theorem mul_pgSize_injective : Injective (· * pgSize) :=
  fun _ _ hsame => Nat.eq_of_mul_eq_mul_right (by decide) hsame

theorem page_of_inRange (hframe : Frames.InRange frame) : Page (frame * pgSize) where
  low := Nat.mul_le_mul_right pgSize hframe.1
  high := Nat.mul_lt_mul_of_pos_right hframe.2 (by decide)
  aligned := Nat.dvd_mul_left _ _

theorem Backs.counted_update (hbacks : Backs allocator memory) (hframe : Frames.InRange frame)
    (value : ℤ) (other : ℕ) (hother : Frames.InRange other) :
    update allocator.count (slotOf (frame * pgSize)) value (slotOf (other * pgSize)) =
      update memory.count frame value other := by
  rw [update_slotOf (page_of_inRange hframe) (page_of_inRange hother), update_apply,
    hbacks.counted other hother]
  simp only [mul_pgSize_injective.eq_iff]

/-- After `init` the free frames are the pages that it has found. -/
theorem backs_boot {kernelEnd heapEnd : ℕ} (hlow : kernelBase ≤ kernelEnd)
    (hhigh : heapEnd ≤ physTop) (words : ℕ → Option ℕ)
    (hfree : memory.free.map (· * pgSize) = (heapPages kernelEnd heapEnd).reverse)
    (hcount : ∀ frame, memory.count frame = 0) :
    Backs (boot kernelEnd heapEnd words).allocator memory where
  chain := hfree ▸ (chain_boot kernelEnd heapEnd words).1
  nodup := by
    refine List.Nodup.of_map (· * pgSize) ?_
    rw [hfree]
    exact List.nodup_reverse.mpr (nodup_heapPages kernelEnd heapEnd)
  inRange := by
    intro frame hframe
    have hmem := List.mem_map_of_mem (f := (· * pgSize)) hframe
    rw [hfree, List.mem_reverse] at hmem
    have hpage := page_of_mem_heapPages hlow hhigh hmem
    have hbase : Frames.kernelPage * pgSize ≤ frame * pgSize := hpage.low
    have htop : frame * pgSize < (Frames.kernelPage + npages) * pgSize := hpage.high
    exact ⟨Nat.le_of_mul_le_mul_right hbase (by decide), Nat.lt_of_mul_lt_mul_right htop⟩
  counted := by
    intro frame _
    rw [hcount]
    exact congrFun (chain_boot kernelEnd heapEnd words).2 _

/-- `Frames.alloc` panics where `alloc` returns the null pointer. -/
theorem Backs.alloc (hbacks : Backs allocator memory) :
    Ensures (alloc pgSize) allocator (fun result next => Ensures Frames.alloc memory
        (fun frame after => result = some (frame * pgSize) ∧ Backs next after)
        (fun _ _ => result = none ∧ next = allocator))
      (fun _ _ => False) := by
  have hpages : ∀ page ∈ memory.free.map (· * pgSize), Page page :=
    List.forall_mem_map.mpr fun frame hframe => page_of_inRange (hbacks.inRange frame hframe)
  refine (ensures_alloc hbacks.chain hpages le_rfl).imp_returned ?_
  intro result next hresult
  refine Frames.ensures_alloc.mpr ⟨fun hfree => ?_, fun frame rest hfree => ?_⟩
  · obtain ⟨hnone, hsame, -⟩ | ⟨page, pages, -, hcons, -⟩ := hresult
    · exact ⟨hnone, hsame⟩
    · rw [hfree] at hcons
      cases hcons
  · obtain ⟨-, -, hnil⟩ | ⟨page, pages, rfl, hcons, rfl⟩ := hresult
    · rw [hfree] at hnil
      cases hnil
    · have hcounted := hbacks.counted_update (hbacks.inRange frame (by simp [hfree])) 1
      obtain ⟨hchain, hnodup, hin, -⟩ := hbacks
      rw [hfree] at hcons hchain hnodup hin
      rw [List.map_cons] at hcons
      obtain ⟨rfl, rfl⟩ := List.cons.inj hcons
      refine ⟨rfl, hchain.2.update ?_ none, hnodup.of_cons,
        fun other hother => hin other (List.mem_cons_of_mem _ hother), hcounted⟩
      rw [List.mem_map_of_injective mul_pgSize_injective]
      exact (List.nodup_cons.mp hnodup).1

theorem Backs.dealloc (hbacks : Backs allocator memory) (hframe : Frames.InRange frame)
    (hheld : frame ∉ memory.free) {value : ℕ} (hvalue : value < 2147483647)
    (hcount : memory.count frame = value + 1) :
    Ensures (dealloc (frame * pgSize) pgSize) allocator (fun _ next =>
        Ensures (Frames.dealloc frame) memory (fun _ after => Backs next after) fun _ _ => False)
      (fun _ _ => False) := by
  refine (ensures_dealloc (page_of_inRange hframe) le_rfl hvalue
    ((hbacks.counted frame hframe).trans hcount)).imp_returned ?_
  rintro _ next rfl
  refine Frames.ensures_dealloc.mpr ⟨absurd hframe, fun _ => ?_⟩
  have hcounted := hbacks.counted_update hframe value
  rw [Frames.Memory.dropped, hcount, Int.add_sub_cancel]
  by_cases hzero : value = 0
  · rw [if_pos hzero, if_pos (Int.natCast_eq_zero.mpr hzero)]
    refine ⟨hbacks.chain.push ?_, List.nodup_cons.mpr ⟨hheld, hbacks.nodup⟩,
      List.forall_mem_cons.mpr ⟨hframe, hbacks.inRange⟩, hcounted⟩
    rwa [List.mem_map_of_injective mul_pgSize_injective]
  · rw [if_neg hzero, if_neg fun h => hzero (Int.natCast_eq_zero.mp h)]
    exact ⟨hbacks.chain, hbacks.nodup, hbacks.inRange, hcounted⟩

theorem Backs.addCount (hbacks : Backs allocator memory) (hframe : Frames.InRange frame)
    {value : ℕ} (hcount : memory.count frame = value) :
    Ensures (addCount (frame * pgSize)) allocator (fun _ next =>
        Ensures (Frames.addCount frame) memory (fun _ after => Backs next after) fun _ _ => False)
      (fun cause _ => cause = .overflow ∧ 2147483647 ≤ value) := by
  have hdown : pageRoundDown (frame * pgSize) = frame * pgSize :=
    Nat.div_mul_cancel (Nat.dvd_mul_left _ _)
  have hpage : Page (pageRoundDown (frame * pgSize)) := hdown.symm ▸ page_of_inRange hframe
  have hbefore : allocator.count (slotOf (pageRoundDown (frame * pgSize))) = value := by
    rw [hdown, hbacks.counted frame hframe, hcount]
  refine (ensures_addCount hpage hbefore).imp_returned ?_
  rintro _ next ⟨-, rfl⟩
  refine Frames.ensures_addCount.mpr ⟨absurd hframe, fun _ => ?_⟩
  have hcounted := hbacks.counted_update hframe (value + 1 : ℕ)
  rw [hdown, hcount, ← Nat.cast_add_one]
  exact ⟨hbacks.chain, hbacks.nodup, hbacks.inRange, hcounted⟩

end Frames

/-! ## Runs -/

/-- The free list has every heap page with count 0 once and no other page, free
and allocated pages make up the heap, and no call that a client may make has an
index out of range. -/
structure Sound (heap : List ℕ) (system : System) : Prop where
  free_list : ∃ free, Chain system.allocator.next system.allocator.head free ∧ free.Nodup ∧
    (∀ page ∈ free, page ∈ heap) ∧ (∀ page ∈ heap,
      page ∈ free ↔ system.allocator.count (slotOf page) = 0) ∧
    free.length + (heap.filter fun page => 0 < system.live page).length = heap.length
  unfailing : ∀ action panic, Admitted system action →
    panicOf system action = some panic → panic = .overflow

structure Manages (heap : List ℕ) (record : List (System × Action))
    (last : System) : Prop where
  sound_last : Sound heap last
  sound : ∀ entry ∈ record, Sound heap entry.1
  fresh : ∀ entry ∈ record, ∀ page, allocated entry.1 entry.2 = some page →
    page ∈ heap ∧ entry.1.live page = 0
  returned : ∀ left state action right page, record = left ++ (state, action) :: right →
    allocated state action = some page → (∀ entry ∈ right, allocated entry.1 entry.2 ≠ some page) →
    ∀ free, Chain last.allocator.next last.allocator.head free →
      (page ∈ free ↔ (right.map fun entry => givenBack page entry.2).sum =
        (right.map fun entry => gained page entry.2).sum + 1)

section Runs

variable {heap : List ℕ} {first last : System} {record : List (System × Action)}

theorem Consistent.sound (hheap : ∀ page ∈ heap, Page page)
    (hnodup : heap.Nodup) {system : System} {free : List ℕ}
    (hconsistent : Consistent heap system free) : Sound heap system := by
  refine ⟨⟨free, hconsistent.chain, hconsistent.nodup, hconsistent.free_heap, ?_, ?_⟩, ?_⟩
  · intro page hpage
    rw [hconsistent.free_iff page hpage, hconsistent.counted page hpage, Int.natCast_eq_zero]
  · have hperm : free.Perm (heap.filter fun page => ¬0 < system.live page) := by
      rw [List.perm_ext_iff_of_nodup hconsistent.nodup (hnodup.filter _)]
      intro page
      rw [List.mem_filter, decide_eq_true_iff, Nat.not_lt, Nat.le_zero]
      constructor
      · intro hpage
        have hmem := hconsistent.free_heap page hpage
        exact ⟨hmem, (hconsistent.free_iff page hmem).mp hpage⟩
      · rintro ⟨hmem, hzero⟩
        exact (hconsistent.free_iff page hmem).mpr hzero
    have hsplit := List.length_eq_length_filter_add
      (fun page => decide (0 < system.live page)) (l := heap)
    rw [hperm.length_eq, hsplit]
    simp only [decide_not]
    omega
  · intro action panic hadmitted hpanic
    rcases stepped hheap hconsistent hadmitted with
      ⟨next, -, hnone, -⟩ | ⟨-, hoverflow⟩
    · rw [hnone] at hpanic
      cases hpanic
    · rw [hoverflow] at hpanic
      exact (Option.some.inj hpanic).symm

theorem stepped_of_step (hheap : ∀ page ∈ heap, Page page) {system next : System} {action : Action}
    (hconsistent : ∃ free, Consistent heap system free) (hadmitted : Admitted system action)
    (hstep : step system action = some next) : Stepped heap system action next := by
  obtain ⟨free, hconsistent⟩ := hconsistent
  rcases stepped hheap hconsistent hadmitted with
    ⟨other, hother, -, hstepped⟩ | ⟨hnone, -⟩
  · rw [hother] at hstep
    cases hstep
    exact hstepped
  · rw [hnone] at hstep
    cases hstep

/-- The references to a page after it was handed out. -/
theorem live_after (hheap : ∀ page ∈ heap, Page page)
    (hconsistent : ∃ free, Consistent heap first free) (hrun : Run step first record last)
    (hadmitted : ∀ entry ∈ record, Admitted entry.1 entry.2) {page : ℕ}
    (hlater : ∀ entry ∈ record, allocated entry.1 entry.2 ≠ some page) :
    last.live page + (record.map fun entry => givenBack page entry.2).sum =
      first.live page + (record.map fun entry => gained page entry.2).sum := by
  have hkeep : ∀ system action next, (∃ free, Consistent heap system free) →
      (Admitted system action ∧ allocated system action ≠ some page) →
      step system action = some next → ∃ free, Consistent heap next free := by
    intro system action next hconsistent hadmitted hstep
    exact (stepped_of_step hheap hconsistent hadmitted.1 hstep).consistent
  have hvalue : ∀ system action next, (∃ free, Consistent heap system free) →
      (Admitted system action ∧ allocated system action ≠ some page) →
      step system action = some next →
      next.live page + givenBack page action = system.live page + gained page action := by
    intro system action next hconsistent hadmitted hstep
    exact (stepped_of_step hheap hconsistent hadmitted.1 hstep).live_eq page hadmitted.2
  exact hrun.ledger hkeep hvalue hconsistent fun entry hentry =>
    ⟨hadmitted entry hentry, hlater entry hentry⟩

/-- A consistent allocator manages its heap in every run of its clients. -/
theorem manages_of_consistent (hheap : ∀ page ∈ heap, Page page)
    (hnodup : heap.Nodup) (hconsistent : ∃ free, Consistent heap first free)
    (hrun : Run step first record last) (hadmitted : ∀ entry ∈ record, Admitted entry.1 entry.2) :
    Manages heap record last := by
  have hkeep : ∀ system action next, (∃ free, Consistent heap system free) →
      Admitted system action → step system action = some next →
      ∃ free, Consistent heap next free := by
    intro system action next hconsistent hadmitted hstep
    exact (stepped_of_step hheap hconsistent hadmitted hstep).consistent
  obtain ⟨⟨free, hlast⟩, hstates⟩ := hrun.invariant hkeep hconsistent hadmitted
  refine ⟨hlast.sound hheap hnodup, ?_, ?_, ?_⟩
  · intro entry hentry
    obtain ⟨free, hentry⟩ := hstates entry hentry
    exact hentry.sound hheap hnodup
  · intro entry hentry page hpage
    obtain ⟨next, hstep⟩ := hrun.step_of_mem hentry
    obtain ⟨hmem, hzero, -⟩ := (stepped_of_step hheap (hstates entry hentry)
      (hadmitted entry hentry) hstep).fresh page hpage
    exact ⟨hmem, hzero⟩
  · rintro left state action right page rfl hpage hlater list hlist
    obtain rfl := hlast.chain.unique hlist
    obtain ⟨middle, -, hright⟩ := hrun.split
    cases hright with
    | step hstep hrest =>
      have hentry : (state, action) ∈ left ++ (state, action) :: right :=
        List.mem_append_right _ List.mem_cons_self
      have hstepped := stepped_of_step hheap (hstates _ hentry) (hadmitted _ hentry) hstep
      obtain ⟨hmem, -, hone⟩ := hstepped.fresh page hpage
      have hledger := live_after hheap hstepped.consistent hrest
        (fun entry hright => hadmitted entry
          (List.mem_append_right _ (List.mem_cons_of_mem _ hright))) hlater
      rw [hlast.free_iff page hmem]
      omega

end Runs

/-- Started over any heap inside the kernel's memory, the allocator manages its
pages whatever its clients do with the pages they have. -/
theorem run_manages {kernelEnd heapEnd : ℕ} (hlow : kernelBase ≤ kernelEnd)
    (hhigh : heapEnd ≤ physTop) {memory : ℕ → Option ℕ} {last : System}
    {record : List (System × Action)} (hrun : Run step (boot kernelEnd heapEnd memory) record last)
    (hadmitted : ∀ entry ∈ record, Admitted entry.1 entry.2) :
    Manages (heapPages kernelEnd heapEnd) record last :=
  manages_of_consistent (fun _ hpage => page_of_mem_heapPages hlow hhigh hpage)
    (nodup_heapPages kernelEnd heapEnd) ⟨_, consistent_boot kernelEnd heapEnd memory⟩ hrun hadmitted

/-- A page that is handed out, shared, written to and given back twice. -/
def sampleActions : List Action :=
  [.alloc 4096, .addCount 6442446896, .store 6442446848 (some 7),
    .dealloc 6442446848 4096, .dealloc 6442446848 8]

theorem run_manages_sample :
    ∃ record last, Run step (boot 6442434561 physTop fun _ => none) record last ∧
      record.map Prod.snd = sampleActions ∧ Manages (heapPages 6442434561 physTop) record last := by
  have hsome : (sampleActions.foldlM (guarded Admitted step)
      (boot 6442434561 physTop fun _ => none)).isSome = true := by decide +kernel
  obtain ⟨last, hfold⟩ := Option.isSome_iff_exists.mp hsome
  obtain ⟨record, hrun, hactions, hadmitted⟩ := Run.of_foldlM_admitted hfold
  exact ⟨record, last, hrun, hactions, run_manages (by decide) (by decide) hrun hadmitted⟩

end RxOs.PageAllocator
