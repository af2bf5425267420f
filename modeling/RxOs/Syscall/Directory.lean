import RxOs.Syscall.Operations

/-!
# Directories and paths

The directory methods of `InodeData`, the path walk of `InodeCache` and
`InodeCache::create`.  The end of a variable's scope, where a guard is unlocked
or a handle put, is written out at the place where it happens.
-/

namespace RxOs.Directory

open Interaction Params Dinode Inode Kernel Operations

/-! ## Directory entries -/

/-- `DirEntry::inum`. -/
def entryInum (entry : List UInt8) : UInt32 :=
  (entry.getD 0 0).toUInt32 + 256 * (entry.getD 1 0).toUInt32

/-- `DirEntry::name`. -/
def entryName (entry : List UInt8) : List UInt8 :=
  entry.drop 2

/-- The bytes of a `DirEntry`; the number is cut to sixteen bits. -/
def encodeEntry (inum : UInt32) (name : List UInt8) : List UInt8 :=
  [inum.toUInt8, (inum >>> 8).toUInt8] ++ name ++ List.replicate (dirsiz - name.length) 0

/-- The comparison of names in `dir_lookup`: equal up to a common zero. -/
def sameName : List UInt8 → List UInt8 → Bool
  | a :: name, b :: entry =>
    if a ≠ b then false else if b = 0 then true else sameName name entry
  | _, _ => false

/-- The offsets `(first..size).step_by(de_size)`. -/
def entryOffsets (first size : ℕ) : List ℕ :=
  (List.range ((size - first + deSize - 1) / deSize)).map fun index => first + deSize * index

def readEntry (dir : Handle) (offset : ℕ) : Call (List UInt8) := do
  let outcome : Except String (List UInt8) ←
    act (.read dir (.ofNat offset) (.ofNat deSize))
  match outcome with
  | .ok entry => pure entry
  | .error _ => abort .unwrapNone

/-- The loop of `dir_lookup`. -/
def lookupIn (dir : Handle) (name : List UInt8) :
    List ℕ → Call (Option Handle)
  | [] => pure none
  | offset :: offsets => do
    let entry ← readEntry dir offset
    if entryInum entry ≠ 0 ∧ sameName name (entryName entry) then do
      let inode : Handle ← act (.cacheGet (entryInum entry))
      pure (some inode)
    else lookupIn dir name offsets

def dirLookup (dir : Handle) (name : List UInt8) : Call (Option Handle) := do
  let idata : InodeData ← act (.view dir)
  if idata.dinode.itype ≠ .directory then abort .notDirectory
  else lookupIn dir name (entryOffsets 0 idata.dinode.size.toNat)

/-- The loop of `dir_link`, which counts past the first free entry too. -/
def linkOffset (dir : Handle) : List ℕ → (entryOffset : ℕ) → Call ℕ
  | [], entryOffset => pure entryOffset
  | offset :: offsets, entryOffset => do
    let entry ← readEntry dir offset
    if entryInum entry = 0 then pure (entryOffset + deSize)
    else linkOffset dir offsets (entryOffset + deSize)

def dirLink (dir : Handle) (name : List UInt8) (inum : UInt32) :
    Call (Except String Unit) := do
  let idata : InodeData ← act (.view dir)
  if idata.dinode.itype ≠ .directory then abort .notDirectory
  else do
    let entryOffset ← linkOffset dir (entryOffsets 0 idata.dinode.size.toNat) 0
    let outcome : Except String ℕ ←
      act (.write dir (.ofNat entryOffset) (encodeEntry inum name))
    pure (outcome.map fun _ => ())

/-- The loop of `is_dir_empty`. -/
def emptyFrom (dir : Handle) : List ℕ → Call Bool
  | [] => pure false
  | offset :: offsets => do
    let entry ← readEntry dir offset
    if entryInum entry ≠ 0 then pure true else emptyFrom dir offsets

/-- `InodeData::is_dir_empty`; the answer is `true` when there is an entry. -/
def isDirEmpty (dir : Handle) : Call Bool := do
  let idata : InodeData ← act (.view dir)
  emptyFrom dir (entryOffsets (2 * deSize) idata.dinode.size.toNat)

/-! ## Paths -/

/-- The byte `/`. -/
def slash : UInt8 := 47

/-- Move on while the bytes satisfy a condition.  Running off the end of the
path is an index out of bounds. -/
def skipWhile (path : List UInt8) (cur : ℕ) (condition : UInt8 → Bool) : Except Panic ℕ :=
  let next := cur + ((path.drop cur).takeWhile condition).length
  if next < path.length then .ok next else .error .indexOutOfBounds

/-- `skip_path`: the position behind the next component, zero at the end of the
path, and the component in the name buffer. -/
def skipPath (path : List UInt8) (cur : ℕ) (name : List UInt8) :
    Except Panic (ℕ × List UInt8) := do
  let start ← skipWhile path cur (· = slash)
  if path.getD start 0 = 0 then return (0, name)
  else
    let stop ← skipWhile path start fun byte => byte ≠ slash ∧ byte ≠ 0
    if dirsiz ≤ stop - start then throw .nameTooLong
    else
      let component := (path.drop start).take (stop - start)
      let next ← skipWhile path stop (· = slash)
      return (next, component ++ [0] ++ name.drop (stop - start + 1))

/-- The loop of `namex`.  Every component moves on in the path, so the length of
the path is enough fuel. -/
def namexLoop (path : List UInt8) (isParent : Bool) : (fuel : ℕ) →
    (inode : Handle) → (cur : ℕ) → (name : List UInt8) → Call (Option Handle × List UInt8)
  | 0, inode, _, name => do
    put inode
    pure (none, name)
  | fuel + 1, inode, cur, name =>
    match skipPath path cur name with
    | .error cause => abort cause
    | .ok (0, name) =>
      if isParent then do
        put inode
        pure (none, name)
      else pure (some inode, name)
    | .ok (cur, name) => do
      act (.lock inode)
      let idata : InodeData ← act (.view inode)
      if idata.dinode.itype ≠ .directory then do
        act (.unlock inode)
        put inode
        pure (none, name)
      else if isParent ∧ path.getD cur 0 = 0 then do
        act (.unlock inode)
        pure (some inode, name)
      else do
        let found ← dirLookup inode name
        act (.unlock inode)
        put inode
        match found with
        | some lastInode => namexLoop path isParent fuel lastInode cur name
        | none => pure (none, name)

/-- `InodeCache::namex`, with the name buffer it leaves. -/
def namex (path : List UInt8) (isParent : Bool) :
    Call (Option Handle × List UInt8) := do
  let inode ← (if path.getD 0 0 = slash then act (.cacheGet rootInum)
    else act .dupCwd : Call Handle)
  namexLoop path isParent (path.length + 1) inode 0 (List.replicate dirsiz 0)

def namei (path : List UInt8) : Call (Option Handle) := do
  let (inode, _) ← namex path false
  pure inode

def nameiParent (path : List UInt8) : Call (Option Handle × List UInt8) :=
  namex path true

/-! ## Creating an inode -/

/-- The entries `.` and `..` of a new directory. -/
def linkSelf (inode : Handle) : Call (Except String Unit) := do
  let idata : InodeData ← act (.view inode)
  act (.assign inode { idata.dinode with nlink := idata.dinode.nlink + 1 })
  act (.update inode)
  match ← dirLink inode [46] inode.inum with
  | .error message => pure (.error message)
  | .ok () => dirLink inode [46, 46] inode.inum

/-- The part of `create` for a name that the directory does not have. -/
def createNew (dirinode : Handle) (name : List UInt8) (itype : InodeType)
    (major minor : Int16) : Call (Except String Handle) := do
  let inum : UInt32 ← act (.allocInode itype)
  let inode : Handle ← act (.cacheGet inum)
  act (.lock inode)
  let idata : InodeData ← act (.view inode)
  act (.assign inode { idata.dinode with
    itype := itype, major := major, minor := minor, nlink := 1 })
  act (.update inode)
  let linked ← (if itype = .directory then linkSelf inode
    else pure (.ok ()) : Call (Except String Unit))
  match linked with
  | .error message => do
    act (.unlock inode)
    put inode
    act (.unlock dirinode)
    put dirinode
    pure (.error message)
  | .ok () => do
    match ← dirLink dirinode name idata.inum with
    | .error _ => abort .unwrapNone
    | .ok () => do
      act (.unlock inode)
      act (.unlock dirinode)
      put dirinode
      pure (.ok inode)

def create (path : List UInt8) (itype : InodeType) (major minor : Int16) :
    Call (Except String Handle) := do
  match ← nameiParent path with
  | (none, _) => abort .unwrapNone
  | (some dirinode, name) => do
    act (.lock dirinode)
    match ← dirLookup dirinode name with
    | some inode => do
      act (.unlock dirinode)
      act (.lock inode)
      let idata : InodeData ← act (.view inode)
      act (.unlock inode)
      if (idata.dinode.itype = .device ∨ idata.dinode.itype = .file) ∧ itype = .file then do
        put dirinode
        pure (.ok inode)
      else do
        put inode
        put dirinode
        pure (.error "create: unmatched type")
    | none => createNew dirinode name itype major minor

end RxOs.Directory
