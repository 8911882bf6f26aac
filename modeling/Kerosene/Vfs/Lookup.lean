import Kerosene.Vfs.Tree

/-!
# `vfs_find_and_create_node`

`Store` is what the function asks of the filesystems: the entries that iterating a directory gives,
with the error that ends the iteration, and the three ways to create an entry. `kmalloc` answers null,
or a block with what it held before.
-/

namespace Kerosene.Vfs
open Lib Ramfs

def fileOpenTruncate : FileMode := 1#16 <<< 2
def fileOpenCreate : FileMode := 1#16 <<< 3
def fileOpenExclusive : FileMode := 1#16 <<< 4
def fileOpenOnlydir : FileMode := 1#16 <<< 5

structure Entry (ε : Type) where
  name : Name
  flags : BitVec 32
  semaphore : Option Addr
  data : ε

structure Listing (ε : Type) where
  entries : List (Entry ε)
  lastErr : FsErr
  isError : lastErr ≠ .success

structure Store (σ φ ε : Type) where
  iterate : σ → φ → ε → Listing ε
  nodeCreate : σ → φ → ε → Name → (flags : BitVec 32) → Except FsErr (Entry ε) × σ
  mkdir : σ → φ → ε → Name → (flags : BitVec 32) → Except FsErr (Entry ε) × σ
  createSpecialNode : σ → φ → ε → Name → (type : BitVec 32) → Except FsErr (Entry ε) × σ

/-- The filesystems: where each has its root node, which one is the ramfs, and which are FAT32. -/
structure Volumes (φ : Type) where
  root : φ → Addr
  ramfs : φ
  isFat32 : φ → Bool

/-! ## Paths and names -/

def slash : UInt8 := 47

/-- `strtok_r(…, "/", …)`: the token and what is left behind its delimiter. -/
def strtok (path : Name) : Option (Name × Name) :=
  match path.dropWhile (· == slash) with
  | [] => none
  | start => some (start.takeWhile (· != slash), (start.dropWhile (· != slash)).tail)

def toUpper (c : UInt8) : UInt8 := if 97 ≤ c ∧ c ≤ 122 then c - 32 else c

def strcmpCaseInsensitive (a b : Name) : Bool := a.map toUpper == b.map toUpper

variable {σ φ ε : Type}

-- `cmpcmd` of `node_find`
def sameName (V : Volumes φ) (fs : φ) (a b : Name) : Bool :=
  if V.isFat32 fs then strcmpCaseInsensitive a b else a == b

/-! ## `node_find` and the creation of entries -/

-- what iteration and creation write into a node
def Node.fill (node : Node φ ε) (parentAddr : Addr) (parent : Node φ ε) (entry : Entry ε) : Node φ ε :=
  { node with
    name := entry.name, fs := parent.fs, parent := some parentAddr, children := none, nextSibling := none
    flags := entry.flags, refcount := 0, semaphore := entry.semaphore, data := entry.data }

def findLoop (V : Volumes φ) (parentAddr : Addr) (parent : Node φ ε) (name : Name) (lastErr : FsErr) :
    (retNode : Node φ ε) → List (Entry ε) → FsErr × Node φ ε
  | retNode, [] => (if lastErr ≠ .eof then lastErr else .notFound, retNode)
  | retNode, entry :: entries =>
      let retNode := retNode.fill parentAddr parent entry
      if sameName V parent.fs name retNode.name then (.success, retNode)
      else findLoop V parentAddr parent name lastErr retNode entries

def nodeFind (V : Volumes φ) (S : Store σ φ ε) (disk : σ) (parentAddr : Addr) (parent : Node φ ε) (name : Name)
    (retNode : Node φ ε) : FsErr × Node φ ε :=
  if isDirectory parent.flags then
    let listing := S.iterate disk parent.fs parent.data
    findLoop V parentAddr parent name listing.lastErr { retNode with flags := 0#32 } listing.entries
  else (.notDir, retNode)

-- the choice between `ramfs_create_special_node`, `node_mkdir` and `node_create`
def createEntry (V : Volumes φ) [DecidableEq φ] (S : Store σ φ ε) (disk : σ) (parent : Node φ ε) (name : Name)
    (createFlags : BitVec 32) : Except FsErr (Entry ε) × σ :=
  let type := fsNodeType createFlags
  if type ≠ fsNodeTypeFile ∧ type ≠ fsNodeTypeDirectory then
    if parent.fs = V.ramfs then S.createSpecialNode disk parent.fs parent.data name type
    else (.error .notSupported, disk)
  else if ¬ isDirectory parent.flags then (.error .notDir, disk)
  else if type = fsNodeTypeDirectory then S.mkdir disk parent.fs parent.data name createFlags
  else S.nodeCreate disk parent.fs parent.data name createFlags

/-! ## The walk along the path -/

abbrev Grant (φ ε : Type) := Option (Addr × Node φ ε)

def maxAllocation : Nat := 512

/-- How the loop over the components ends, with the nodes on `search_stack`. -/
inductive Walk (φ ε : Type) where
  | arrived (s : Tree φ ε) (current : Addr) (stack : List Addr)
  | create (s : Tree φ ε) (parent : Addr) (name : Name) (stack : List Addr) (grants : List (Grant φ ε))
  -- `goto nuke_search_stack_and_ret`
  | nuke (s : Tree φ ε) (err : FsErr) (stack : List Addr)
  -- `goto ret`
  | leave (s : Tree φ ε) (err : FsErr)

def Tree.followMount (s : Tree φ ε) (a : Addr) : Option Addr := do
  let node ← s.node a
  match node.mountTarget with
  | some target => return if isMountpoint node.flags then target else a
  | none => return a

def isDot (name : Name) : Bool := name == [46]
def isDotdot (name : Name) : Bool := name == [46, 46]

section Walk
variable (V : Volumes φ) (S : Store σ φ ε) (disk : σ) (mode : FileMode)

def doCreateNode : Bool := mode.has fileOpenCreate && !mode.has fileOpenOnlydir

-- a component that no cached child of `parent` has for its name
def load (s : Tree φ ε) (parent : Addr) (name : Name) (isLastToken : Bool) (stack : List Addr)
    (grants : List (Grant φ ε)) : Option (Walk φ ε) :=
  if stack.length ≥ maxAllocation then some (.leave s .maxDepthReached)
  else match grants.head?.join with
  | none => some (.nuke s .notEnoughSpace stack)
  | some (new, stale) => do
      let parentNode ← s.node parent
      let (findErr, node) := nodeFind V S disk parent parentNode name { stale with parent := none }
      let s := s.put new node
      let stack := stack ++ [new]
      if findErr = .notFound ∧ isLastToken then
        return if doCreateNode mode then .create s parent name stack grants.tail else .nuke s .targetNotFound stack
      if findErr ≠ .success then return .nuke s findErr stack
      if mode.has fileOpenExclusive ∧ isLastToken then return .nuke s .entryExisted stack
      let s ← s.appendChild parent new
      return .arrived s new stack

def walkLoop : (fuel : Nat) → (s : Tree φ ε) → (current : Addr) → (stack : List Addr) → (path : Name) →
    List (Grant φ ε) → Option (Walk φ ε)
  | 0, _, _, _, _, _ => none
  | fuel + 1, s, current, stack, path, grants =>
      match strtok path with
      | none => some (.arrived s current stack)
      | some (name, rest) =>
          if isDot name then do walkLoop fuel s (← s.followMount current) stack rest grants
          else if isDotdot name then do
            let node ← s.node current
            walkLoop fuel s (← s.followMount (node.parent.getD current)) stack rest grants
          else do
            let node ← s.node current
            match ← s.siblingWhere (fun child => child.name == name) node.children with
            | some child => walkLoop fuel s (← s.followMount child) stack rest grants
            | none =>
                match ← load V S disk mode s current name rest.isEmpty stack grants with
                | .arrived s new stack => walkLoop fuel s (← s.followMount new) stack rest grants.tail
                | walk => return walk

-- an absolute path starts at the root of the ramfs
def walkPath (s : Tree φ ε) (path : Name) (cwd : Addr) (grants : List (Grant φ ε)) : Option (Walk φ ε) :=
  if path.head? = some slash then walkLoop V S disk mode (path.length + 1) s (V.root V.ramfs) [] path.tail grants
  else walkLoop V S disk mode (path.length + 1) s cwd [] path grants

end Walk

/-! ## The function -/

-- the block under `nuke_search_stack_and_ret`
def nukeSearchStack (s : Tree φ ε) (stack : List Addr) : Option (Tree φ ε) :=
  match stack with
  | [] => some s
  | bottom :: _ => do
      let s ← s.unlink bottom
      return stack.foldl Tree.kfree s

/-- What `kmalloc` answers for the copy of the path, for the search stack and for the nodes. -/
structure Kmalloc (φ ε : Type) where
  pathcpy : Bool
  searchStack : Bool
  nodes : List (Grant φ ε)

structure Found (σ φ ε : Type) where
  err : FsErr
  node : Option Addr
  tree : Tree φ ε
  disk : σ

section
variable (V : Volumes φ) (S : Store σ φ ε)

def failLookup (disk : σ) (s : Tree φ ε) (err : FsErr) (stack : List Addr) : Option (Found σ φ ε) := do
  return ⟨err, none, ← nukeSearchStack s stack, disk⟩

-- from the end of the loop on, with no node to create
def finishLookup (disk : σ) (mode : FileMode) (s : Tree φ ε) (current : Addr) (stack : List Addr) :
    Option (Found σ φ ε) := do
  let node ← s.node current
  if mode.has fileOpenOnlydir ∧ ¬ isDirectory node.flags then failLookup disk s .notDir stack
  else return ⟨.success, some current, s, disk⟩

def createLookup [DecidableEq φ] (disk : σ) (mode : FileMode) (createFlags : BitVec 32) (s : Tree φ ε) (parent : Addr)
    (name : Name) (stack : List Addr) (grants : List (Grant φ ε)) : Option (Found σ φ ε) :=
  match grants.head?.join with
  | none => failLookup disk s .notEnoughSpace stack
  | some (new, stale) => do
      let parentNode ← s.node parent
      match createEntry V S disk parentNode name createFlags with
      | (.error err, disk) => failLookup disk s err stack
      | (.ok entry, disk) =>
          let s ← (s.put new (stale.fill parent parentNode entry)).appendChild parent new
          finishLookup disk mode (s.setNextSibling new none) new stack

def vfsFindAndCreateNode [DecidableEq φ] (disk : σ) (s : Tree φ ε) (path : Name) (cwd : Addr) (mode : FileMode)
    (createFlags : BitVec 32) (kmalloc : Kmalloc φ ε) : Option (Found σ φ ε) :=
  if ¬ kmalloc.pathcpy ∨ ¬ kmalloc.searchStack then some ⟨.notEnoughSpace, none, s, disk⟩
  else do
    match ← walkPath V S disk mode s path cwd kmalloc.nodes with
    | .arrived s current stack => finishLookup disk mode s current stack
    | .create s parent name stack grants => createLookup V S disk mode createFlags s parent name stack grants
    | .nuke s err stack => failLookup disk s err stack
    | .leave s err => return ⟨err, none, s, disk⟩

end
end Kerosene.Vfs
