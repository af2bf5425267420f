import RxOs.Syscall.Directory

/-!
# The components of a path

`skip_path` cuts one component off a path, and `namex` looks one component up
after the other.  The walk is shown to be the walk over the list of components,
whatever the slashes between them, with the name buffer reduced to the component
it holds.
-/

namespace RxOs.PathWalk

open Interaction Params Dinode Inode Kernel Operations Directory

/-! ## Components -/

/-- The maximal runs without `/` before the zero. -/
def components (path : List UInt8) : List (List UInt8) :=
  ((path.takeWhile (· ≠ 0)).splitOnP (· = slash)).filter (· ≠ [])

def isName (byte : UInt8) : Bool := byte ≠ slash ∧ byte ≠ 0

theorem components_slash (path : List UInt8) : components (slash :: path) = components path := by
  have hslash : slash ≠ 0 := by decide
  simp [components, hslash, List.splitOnP_cons_eq_if_modifyHead]

theorem components_dropWhile (path : List UInt8) :
    components (path.dropWhile (· = slash)) = components path := by
  induction path with
  | nil => rfl
  | cons byte path ih =>
    by_cases hbyte : byte = slash
    · rw [List.dropWhile_cons_of_pos (by simpa using hbyte), ih, hbyte, components_slash]
    · rw [List.dropWhile_cons_of_neg (by simpa using hbyte)]

theorem components_zero (path : List UInt8) : components (0 :: path) = [] := by
  simp [components, List.splitOnP_nil]

/-- A path that does not begin with a slash begins with its first component. -/
theorem components_name {byte : UInt8} (path : List UInt8) (hbyte : isName byte = true) :
    components (byte :: path) = (byte :: path).takeWhile isName ::
      components ((byte :: path).dropWhile isName) := by
  generalize hname : (byte :: path).takeWhile isName = name
  generalize hrest : (byte :: path).dropWhile isName = rest
  have hsplit : byte :: path = name ++ rest := by
    rw [← hname, ← hrest, List.takeWhile_append_dropWhile]
  have hnonempty : name ≠ [] := by
    rw [← hname, List.takeWhile_cons_of_pos hbyte]
    exact List.cons_ne_nil _ _
  have hall : ∀ other ∈ name, other ≠ slash ∧ other ≠ 0 := by
    intro other hother
    rw [← hname] at hother
    simpa [isName] using List.mem_takeWhile_imp hother
  have hkeep : ∀ other ∈ name, decide (other ≠ 0) = true := fun other hother =>
    decide_eq_true (hall other hother).2
  have hnoSlash : ∀ other ∈ name, decide (other = slash) = false :=
    fun other hother => decide_eq_false (hall other hother).1
  have halone : (name.splitOnP (· = slash)).filter (· ≠ []) = [name] := by
    rw [List.splitOnP_eq_singleton hnoSlash]
    simp [hnonempty]
  rw [hsplit, components, List.takeWhile_append_of_pos hkeep]
  cases rest with
  | nil =>
    rw [List.takeWhile_nil, List.append_nil, halone]
    rfl
  | cons first rest =>
    have hfirst := List.head?_dropWhile_not isName (byte :: path)
    rw [hrest] at hfirst
    by_cases hzero : first = 0
    · rw [hzero, components_zero, List.takeWhile_cons_of_neg (by simp), List.append_nil, halone]
    · obtain rfl : first = slash := by simpa [isName, hzero] using hfirst
      rw [List.takeWhile_cons_of_pos (by simpa using hzero),
        List.splitOnP_append_cons_of_forall_mem hnoSlash _ (by simp),
        List.filter_cons_of_pos (by simpa using hnonempty), components_slash]
      rfl

/-! ## One component -/

variable {path : List UInt8} {cur : ℕ}

/-- Moving on stops before the zero at the latest. -/
theorem skipWhile_eq (condition : UInt8 → Bool) (hcondition : condition 0 = false)
    (hzero : 0 ∈ path.drop cur) :
    ∃ next, skipWhile path cur condition = .ok next ∧
      next = cur + ((path.drop cur).takeWhile condition).length ∧
      path.drop next = (path.drop cur).dropWhile condition ∧ 0 ∈ path.drop next := by
  have hsplit : (path.drop cur).takeWhile condition ++
      (path.drop cur).dropWhile condition = path.drop cur := List.takeWhile_append_dropWhile
  have hdrop : path.drop (cur + ((path.drop cur).takeWhile condition).length) =
      (path.drop cur).dropWhile condition := by
    rw [← List.drop_drop]
    exact (congrArg (List.drop _) hsplit).symm.trans List.drop_left
  have hmem : (0 : UInt8) ∈ (path.drop cur).dropWhile condition := by
    rw [← hsplit, List.mem_append] at hzero
    refine hzero.resolve_left fun htaken => ?_
    rw [List.mem_takeWhile_imp htaken] at hcondition
    cases hcondition
  refine ⟨_, ?_, rfl, hdrop, hdrop ▸ hmem⟩
  rw [skipWhile, if_pos]
  by_contra hge
  rw [← hdrop, List.drop_of_length_le (Nat.not_lt.mp hge)] at hmem
  cases hmem

theorem getD_eq_of_drop {first : UInt8} {rest : List UInt8}
    (hdrop : path.drop cur = first :: rest) : path.getD cur 0 = first := by
  have hhead := congrArg List.head? hdrop
  rw [List.head?_drop] at hhead
  rw [List.getD_eq_getElem?_getD, hhead]
  rfl

/-- What is left behind slashes: nothing, or a component. -/
theorem head_of_dropWhile {left : List UInt8} (hzero : 0 ∈ path.drop cur)
    (hdrop : path.drop cur = left.dropWhile (· = slash)) :
    path.getD cur 0 = 0 ∧ components left = [] ∨
      ∃ byte rest, path.drop cur = byte :: rest ∧ isName byte = true ∧ path.getD cur 0 = byte := by
  have hcomponents := components_dropWhile left
  rw [← hdrop] at hcomponents
  have hhead := List.head?_dropWhile_not (· = slash) left
  rw [← hdrop] at hhead
  cases hrest : path.drop cur with
  | nil =>
    rw [hrest] at hzero
    cases hzero
  | cons byte rest =>
    rw [hrest] at hhead hcomponents
    by_cases hbyte : byte = 0
    · subst hbyte
      exact Or.inl ⟨getD_eq_of_drop hrest, hcomponents ▸ components_zero rest⟩
    · refine Or.inr ⟨byte, rest, rfl, ?_, getD_eq_of_drop hrest⟩
      simpa [isName, hbyte] using hhead

/-- At the end of the path `skip_path` returns zero. -/
theorem skipPath_nil (hzero : 0 ∈ path.drop cur)
    (hcomponents : components (path.drop cur) = []) (name : List UInt8) :
    skipPath path cur name = .ok (0, name) := by
  obtain ⟨start, hstart, -, hdrop, hmem⟩ := skipWhile_eq (· = slash) (by decide) hzero
  obtain ⟨hnone, -⟩ | ⟨byte, rest, hrest, hbyte, -⟩ := head_of_dropWhile hmem hdrop
  · rw [skipPath, hstart]
    change (if path.getD start 0 = 0 then _ else _) = _
    rw [if_pos hnone]
    rfl
  · rw [← components_dropWhile, ← hdrop, hrest, components_name rest hbyte] at hcomponents
    cases hcomponents

/-- Otherwise it comes to the next component, copies it if it is short enough
and goes behind it. -/
theorem skipPath_component {component : List UInt8} {rest : List (List UInt8)}
    (hzero : 0 ∈ path.drop cur) (hcomponents : components (path.drop cur) = component :: rest)
    (name : List UInt8) :
    ∃ next, (skipPath path cur name = if dirsiz ≤ component.length then .error .nameTooLong
        else .ok (next, component ++ 0 :: name.drop (component.length + 1))) ∧
      cur < next ∧ next < path.length ∧ 0 ∈ path.drop next ∧ 0 ∉ component ∧
      components (path.drop next) = rest ∧ (path.getD next 0 = 0 ↔ rest = []) := by
  obtain ⟨start, hstart, hstart', hdrop, hmem⟩ := skipWhile_eq (· = slash) (by decide) hzero
  rw [← components_dropWhile, ← hdrop] at hcomponents
  obtain ⟨-, hnone⟩ | ⟨byte, tail, htail, hbyte, hget⟩ := head_of_dropWhile hmem hdrop
  · rw [← components_dropWhile, ← hdrop, hcomponents] at hnone
    cases hnone
  obtain ⟨stop, hstop, hstop', hdrop', hmem'⟩ := skipWhile_eq isName (by decide) hmem
  obtain ⟨next, hnext, hnext', hdrop'', hmem''⟩ := skipWhile_eq (· = slash) (by decide) hmem'
  have hcut := components_name tail hbyte
  rw [← htail, hcomponents, List.cons.injEq, ← hdrop'] at hcut
  have hlength : stop - start = component.length := by
    rw [hcut.1, hstop']
    omega
  have hpos : 0 < component.length := by
    rw [hcut.1, htail, List.takeWhile_cons_of_pos hbyte]
    exact Nat.succ_pos _
  have hcopied : (path.drop start).take component.length = component := by
    rw [hcut.1]
    exact (List.prefix_iff_eq_take.mp (List.takeWhile_prefix _)).symm
  have hbyte' : byte ≠ 0 := by
    rintro rfl
    cases hbyte
  have hrest : components (path.drop next) = rest := by rw [hdrop'', components_dropWhile, hcut.2]
  refine ⟨next, ?_, by omega, ?_, hmem'', ?_, hrest, ?_⟩
  · rw [skipPath, hstart]
    change (if path.getD start 0 = 0 then _ else _) = _
    rw [hget, if_neg hbyte']
    change (skipWhile path start isName >>= fun _ => _) = _
    rw [hstop]
    change (if dirsiz ≤ stop - start then _ else _) = _
    rw [hlength, hcopied, hnext]
    change (if _ then _ else Except.ok (next, component ++ [0] ++ _)) = _
    rw [List.append_assoc]
    rfl
  · by_contra hge
    rw [List.drop_of_length_le (Nat.not_lt.mp hge)] at hmem''
    cases hmem''
  · intro hcomponent
    rw [hcut.1] at hcomponent
    cases List.mem_takeWhile_imp hcomponent
  · obtain ⟨hend, hnone⟩ | ⟨byte', tail', htail', hname', hget'⟩ := head_of_dropWhile hmem'' hdrop''
    · exact iff_of_true hend (hcut.2.trans hnone)
    · refine iff_of_false ?_ ?_
      · rw [hget']
        rintro rfl
        cases hname'
      · rw [← hrest, htail', components_name tail' hname']
        exact List.cons_ne_nil _ _

/-- A component that leaves room for its zero is copied. -/
theorem skipPath_cons {component : List UInt8} {rest : List (List UInt8)}
    (hzero : 0 ∈ path.drop cur) (hcomponents : components (path.drop cur) = component :: rest)
    (hshort : component.length < dirsiz) (name : List UInt8) :
    ∃ next, skipPath path cur name = .ok (next,
        component ++ 0 :: name.drop (component.length + 1)) ∧
      cur < next ∧ next < path.length ∧ 0 ∈ path.drop next ∧ 0 ∉ component ∧
      components (path.drop next) = rest ∧ (path.getD next 0 = 0 ↔ rest = []) := by
  obtain ⟨next, hskip, hfacts⟩ := skipPath_component hzero hcomponents name
  rw [if_neg (Nat.not_le.mpr hshort)] at hskip
  exact ⟨next, hskip, hfacts⟩

/-! ## Stale bytes -/

/-- Only the bytes up to the zero are compared. -/
theorem sameName_stale {component : List UInt8} (hzero : 0 ∉ component) (stale entry : List UInt8) :
    sameName (component ++ 0 :: stale) entry = sameName (component ++ [0]) entry := by
  induction component generalizing entry with
  | nil =>
    cases entry with
    | nil => rfl
    | cons byte entry =>
      by_cases hbyte : 0 = byte
      · simp [sameName, ← hbyte]
      · simp [sameName, hbyte]
  | cons first component ih =>
    rw [List.mem_cons, not_or] at hzero
    cases entry with
    | nil => rfl
    | cons byte entry => simp only [List.cons_append, sameName, ih hzero.2]

theorem dirLookup_stale {component : List UInt8} (hzero : 0 ∉ component)
    (dir : Handle) (stale : List UInt8) :
    dirLookup dir (component ++ 0 :: stale) = dirLookup dir (component ++ [0]) := by
  have hloop : ∀ offsets, lookupIn dir (component ++ 0 :: stale) offsets =
      lookupIn dir (component ++ [0]) offsets := by
    intro offsets
    induction offsets with
    | nil => rfl
    | cons offset offsets ih => simp only [lookupIn, ih, sameName_stale hzero stale]
  simp only [dirLookup, hloop]

/-! ## The walk -/

/-- Look a component up in an inode and give the inode back; `None` if it is not
a directory or does not have the component. -/
def lookUp (inode : Handle) (component : List UInt8) :
    Call (Option Handle) := do
  act (.lock inode)
  let idata : InodeData ← act (.view inode)
  if idata.dinode.itype ≠ .directory then do
    act (.unlock inode)
    put inode
    pure none
  else do
    let found ← dirLookup inode (component ++ [0])
    act (.unlock inode)
    put inode
    pure found

/-- The inode that a list of components leads to. -/
def resolve : List (List UInt8) → Handle → Call (Option Handle)
  | [], inode => pure (some inode)
  | component :: rest, inode => do
    match ← lookUp inode component with
    | some next => resolve rest next
    | none => pure none

/-- The inode before the last component, which has to be a directory, and the
last component with its zero. -/
def resolveParent :
    List (List UInt8) → Handle → Call (Option (Handle × List UInt8))
  | [], inode => do
    put inode
    pure none
  | [last], inode => do
    act (.lock inode)
    let idata : InodeData ← act (.view inode)
    act (.unlock inode)
    if idata.dinode.itype ≠ .directory then do
      put inode
      pure none
    else pure (some (inode, last ++ [0]))
  | component :: rest, inode => do
    match ← lookUp inode component with
    | some next => resolveParent rest next
    | none => pure none

def origin (path : List UInt8) : Call Handle :=
  if path.getD 0 0 = slash then act (.cacheGet rootInum) else act .dupCwd

def upToZero (name : List UInt8) : List UInt8 :=
  name.takeWhile (· ≠ 0) ++ (name.dropWhile (· ≠ 0)).take 1

theorem upToZero_stale {component : List UInt8} (hzero : 0 ∉ component) (stale : List UInt8) :
    upToZero (component ++ 0 :: stale) = component ++ [0] := by
  have hkeep : ∀ byte ∈ component, decide (byte ≠ 0) = true :=
    fun byte hbyte => decide_eq_true fun heq => hzero (heq ▸ hbyte)
  rw [upToZero, List.takeWhile_append_of_pos hkeep, List.dropWhile_append_of_pos hkeep]
  simp

theorem succ_of_lt {next : ℕ} (hlt : cur < next) : ∃ before, next = before + 1 :=
  ⟨next - 1, by omega⟩

/-- The loop of `namex` for `namei`. -/
theorem namexLoop_eq_resolve {fuel : ℕ} (hzero : 0 ∈ path.drop cur)
    (hshort : ∀ component ∈ components (path.drop cur), component.length < dirsiz)
    (hfuel : path.length - cur < fuel) (inode : Handle) (name : List UInt8) :
    (do
      let result ← namexLoop path false fuel inode cur name
      pure result.1) = resolve (components (path.drop cur)) inode := by
  induction fuel generalizing cur name inode with
  | zero => cases hfuel
  | succ fuel ih =>
    cases hcomponents : components (path.drop cur) with
    | nil =>
      rw [namexLoop, skipPath_nil hzero hcomponents]
      rfl
    | cons component rest =>
      rw [hcomponents, List.forall_mem_cons] at hshort
      obtain ⟨next, hskip, hlt, hlength, hmem, hclean, rfl, -⟩ :=
        skipPath_cons hzero hcomponents hshort.1 name
      have hloop := ih hmem hshort.2 (by omega)
      obtain ⟨next, rfl⟩ := succ_of_lt hlt
      rw [namexLoop, hskip]
      simp only [resolve, lookUp, bind_assoc, dirLookup_stale hclean,
        Bool.false_eq_true, false_and, if_false]
      refine bind_congr fun _ => bind_congr fun idata => ?_
      split
      · simp only [bind_assoc, pure_bind]
      · simp only [bind_assoc, pure_bind]
        refine bind_congr fun found => bind_congr fun _ => bind_congr fun _ => ?_
        cases found with
        | none => rfl
        | some last => exact hloop last _

/-- The loop of `namex` for `namei_parent`. -/
theorem namexLoop_eq_resolveParent {fuel : ℕ} (hzero : 0 ∈ path.drop cur)
    (hshort : ∀ component ∈ components (path.drop cur), component.length < dirsiz)
    (hfuel : path.length - cur < fuel) (inode : Handle) (name : List UInt8) :
    (do
      let result ← namexLoop path true fuel inode cur name
      pure (result.1.map fun parent => (parent, upToZero result.2))) =
      resolveParent (components (path.drop cur)) inode := by
  induction fuel generalizing cur name inode with
  | zero => cases hfuel
  | succ fuel ih =>
    cases hcomponents : components (path.drop cur) with
    | nil =>
      rw [namexLoop, skipPath_nil hzero hcomponents]
      simp only [if_true, bind_assoc, pure_bind]
      rfl
    | cons component rest =>
      rw [hcomponents, List.forall_mem_cons] at hshort
      obtain ⟨next, hskip, hlt, hlength, hmem, hclean, rfl, hend⟩ :=
        skipPath_cons hzero hcomponents hshort.1 name
      have hloop := ih hmem hshort.2 (by omega)
      obtain ⟨next, rfl⟩ := succ_of_lt hlt
      rw [namexLoop, hskip]
      simp only [true_and, hend, bind_assoc]
      cases hrest : components (path.drop (next + 1)) with
      | nil =>
        simp only [resolveParent, if_true]
        refine bind_congr fun _ => bind_congr fun idata => ?_
        split
        · simp only [bind_assoc, pure_bind]
          rfl
        · simp only [bind_assoc, pure_bind, Option.map_some, upToZero_stale hclean]
      | cons second others =>
        rw [hrest] at hloop
        simp only [resolveParent, lookUp, bind_assoc,
          dirLookup_stale hclean, reduceCtorEq, if_false]
        refine bind_congr fun _ => bind_congr fun idata => ?_
        split
        · simp only [bind_assoc, pure_bind]
          rfl
        · simp only [bind_assoc, pure_bind]
          refine bind_congr fun found => bind_congr fun _ => bind_congr fun _ => ?_
          cases found with
          | none => rfl
          | some last => exact hloop last _

/-- `namei` and `namei_parent` visit the components of a path one after the
other, whatever its slashes. -/
theorem namei_eq_resolve (hzero : 0 ∈ path)
    (hshort : ∀ component ∈ components path, component.length < dirsiz) :
    namei path = (do
      let inode ← origin path
      resolve (components path) inode) ∧
    (do
      let result ← nameiParent path
      pure (result.1.map fun parent => (parent, upToZero result.2))) = (do
        let inode ← origin path
        resolveParent (components path) inode) := by
  have hmem : 0 ∈ path.drop 0 := hzero
  have hfuel : path.length - 0 < path.length + 1 := by omega
  constructor
  · simp only [namei, namex, bind_assoc]
    refine bind_congr fun inode => ?_
    exact namexLoop_eq_resolve hmem hshort hfuel inode _
  · simp only [nameiParent, namex, bind_assoc]
    refine bind_congr fun inode => ?_
    exact namexLoop_eq_resolveParent hmem hshort hfuel inode _

/-- The path `//a/bc//`, with stale bytes behind its zero. -/
def samplePath : List UInt8 := [47, 47, 97, 47, 98, 99, 47, 47, 0, 47, 100]

theorem namei_eq_resolve_sample :
    components samplePath = [[97], [98, 99]] ∧ namei samplePath = (do
      let inode ← origin samplePath
      resolve [[97], [98, 99]] inode) := by
  have hcomponents : components samplePath = [[97], [98, 99]] := by decide
  refine ⟨hcomponents, ?_⟩
  rw [← hcomponents]
  exact (namei_eq_resolve (by decide) (by rw [hcomponents]; decide)).1

end RxOs.PathWalk
