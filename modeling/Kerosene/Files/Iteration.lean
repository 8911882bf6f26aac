import Kerosene.Fat32.Listing
import Kerosene.Ramfs.DirectoryReads
import Kerosene.Files.Calls

/-!
# Iterating over a directory

`node_setup_directory_iterator` and `node_iterate_directory` of node_op.c, and the calls of file_op.c that keep
an iterator in a descriptor. `make_diriter_adapter` does not set the node of the iterator that it makes, which
is then whatever its place on the stack held before.
-/

namespace Kerosene.Files
open Lib Ramfs

inductive DirErr
  | failed
  | eof
  | badCluster
  | notDir
  deriving DecidableEq

def dtFifo : Nat := 1
def dtDir : Nat := 4
def dtReg : Nat := 8

-- `dirent_t` without `d_ino`, which is always 0
structure Dirent where
  dType : Nat
  dName : Name
  deriving DecidableEq

def direntOf (name : Name) (flags : BitVec 32) : Dirent where
  dType := if fsNodeType flags = fsNodeTypeDirectory then dtDir else if fsNodeType flags = fsNodeTypePipe then dtFifo else dtReg
  dName := name

/-- What is mounted: the heap of the ramfs, or a volume with the cluster of its root directory. -/
inductive Volume
  | ramfs (h : Heap)
  | fat32 (d : Fat32.Disk) (rootdirCluster : UInt32)

-- `first` is the first word of the union: `ramfs.node_addr` or `fat32.start_cluster`
structure Node where
  volume : Volume
  flags : BitVec 32
  first : Nat

-- the union of `directory_iterator_t` has one word, `ramfs.current_datanode` or `fat32.current_cluster`
structure DirectoryIterator where
  node : Nat
  currentIndex : Int
  current : Nat

-- `file_description_t` of a directory
structure DirectoryDescription where
  node : Nat
  mode : FileMode
  currentIndex : Int
  current : Nat

/-- What a call finds where `diriter.node` comes to lie, in `ret_node` and in `entry_name`. -/
structure Junk where
  node : Nat
  stale : Fat32.Stale

def address (word : Nat) : Addr := Fin.ofNat (2 ^ 32) word

namespace Volume

def setupDirectoryIterator (v : Volume) (first : Nat) : Option (Int × Nat) :=
  match v with
  | ramfs h => (h.ramfsSetupDirectoryIterator (address first)).map fun i => (i.currentIndex, i.currentDatanode.val)
  | fat32 _ _ =>
      let i := Fat32.Disk.fat32SetupDirectoryIterator first
      some (i.currentIndex, i.currentCluster)

/-- The entry found, its flags and where the iterator gets; `none` for a fault. -/
def iterateDirectory (v : Volume) (fuel : Nat) (stale : Fat32.Stale) (at_ : Int × Nat) :
    Option (Except DirErr (Dirent × (Int × Nat))) :=
  match v with
  | ramfs h => do
      match ← h.ramfsIterateDirectory ⟨at_.1, address at_.2⟩ with
      | .error _ => return .error .eof
      | .ok (node, i) => return .ok (direntOf node.name node.flags, (i.currentIndex, i.currentDatanode.val))
  | fat32 d rootdirCluster => do
      match ← d.fat32IterateDirectory rootdirCluster fuel ⟨at_.1, at_.2⟩ stale.ret stale.entryName with
      | (.success, some (i, node)) =>
          return .ok (direntOf node.listed.name node.flags, (i.currentIndex, i.currentCluster))
      | (.eof, none) => return .error .eof
      | _ => return .error .badCluster

end Volume

section
-- the nodes in memory, by their address
variable (nodes : Nat → Option Node) (fuel : Nat)

/-! ## By the node -/

def nodeSetupDirectoryIterator (node : Nat) : Option DirectoryIterator := do
  let n ← nodes node
  let (index, current) ← n.volume.setupDirectoryIterator n.first
  return ⟨node, index, current⟩

def nodeIterateDirectory (stale : Fat32.Stale) (diriter : DirectoryIterator) :
    Option (Except DirErr (Dirent × DirectoryIterator)) := do
  let n ← nodes diriter.node
  match ← n.volume.iterateDirectory fuel stale (diriter.currentIndex, diriter.current) with
  | .error err => return .error err
  | .ok (dirent, (index, current)) => return .ok (dirent, ⟨diriter.node, index, current⟩)

-- the calls up to `ERR_FS_EOF`, with the names and types that they give
def nodeEntries (junk : Nat → Junk) : (rounds : Nat) → (call : Nat) → DirectoryIterator → Option (List Dirent)
  | 0, _, _ => none
  | rounds + 1, call, diriter =>
      match nodeIterateDirectory nodes fuel (junk call).stale diriter with
      | some (.ok (dirent, diriter)) => (nodeEntries junk rounds (call + 1) diriter).map (dirent :: ·)
      | some (.error .eof) => some []
      | _ => none

def nodeListing (junk : Nat → Junk) (rounds : Nat) (node : Nat) : Option (List Dirent) := do
  nodeEntries nodes fuel junk rounds 0 (← nodeSetupDirectoryIterator nodes node)

/-! ## By the descriptor -/

def saveDiriterAdapter (dir : DirectoryDescription) (diriter : DirectoryIterator) : DirectoryDescription :=
  { dir with currentIndex := diriter.currentIndex, current := diriter.current }

def makeDiriterAdapter (junk : Junk) (dir : DirectoryDescription) : DirectoryIterator := ⟨junk.node, dir.currentIndex, dir.current⟩

def fileSetupDirectoryIterator (dir : DirectoryDescription) : Option (Except DirErr DirectoryDescription) := do
  let n ← nodes dir.node
  if fsNodeType n.flags ≠ fsNodeTypeDirectory then return .error .notDir
  if ¬ dir.mode.has fileOpenRead then return .error .failed
  return .ok (saveDiriterAdapter dir (← nodeSetupDirectoryIterator nodes dir.node))

def fileIterateDirectory (junk : Junk) (dir : DirectoryDescription) : Option (Except DirErr (Dirent × DirectoryDescription)) := do
  let n ← nodes dir.node
  if fsNodeType n.flags ≠ fsNodeTypeDirectory then return .error .notDir
  if ¬ dir.mode.has fileOpenRead then return .error .notDir
  match ← nodeIterateDirectory nodes fuel junk.stale (makeDiriterAdapter junk dir) with
  | .error err => return .error err
  | .ok (dirent, diriter) => return .ok (dirent, saveDiriterAdapter dir diriter)

def fileEntries (junk : Nat → Junk) : (rounds : Nat) → (call : Nat) → DirectoryDescription → Option (List Dirent)
  | 0, _, _ => none
  | rounds + 1, call, dir =>
      match fileIterateDirectory nodes fuel (junk call) dir with
      | some (.ok (dirent, dir)) => (fileEntries junk rounds (call + 1) dir).map (dirent :: ·)
      | some (.error .eof) => some []
      | _ => none

def fileListing (junk : Nat → Junk) (rounds : Nat) (dir : DirectoryDescription) : Option (List Dirent) := do
  match ← fileSetupDirectoryIterator nodes dir with
  | .ok dir => fileEntries nodes fuel junk rounds 0 dir
  | .error _ => none

end
end Kerosene.Files
