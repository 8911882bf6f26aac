import Kerosene.Lib.Forest
import Kerosene.Ramfs.File

/-!
# The node tree of vfs_op.c

A node in memory has links to its parent, to its first child and to its next sibling. `φ` names the
filesystems and `ε` is the part of a node that depends on its filesystem. Names of blocks that are not
allocated are `none`, and following a pointer to one is a fault, also `none`. Sizes, timestamps and
the lock of a node are left out.
-/

namespace Kerosene.Vfs
open Lib Ramfs

structure Node (φ ε : Type) where
  name : Name
  fs : φ
  parent : Option Addr
  children : Option Addr
  nextSibling : Option Addr
  flags : BitVec 32
  mountTarget : Option Addr
  refcount : Int
  semaphore : Option Addr
  data : ε

def fsNodeFlagMountpoint : BitVec 32 := 1#32 <<< 5

def isDirectory (flags : BitVec 32) : Bool := fsNodeType flags == fsNodeTypeDirectory

def isSemaphore (flags : BitVec 32) : Bool := fsNodeType flags == fsNodeTypeSemaphore

def isMountpoint (flags : BitVec 32) : Bool := flags &&& fsNodeFlagMountpoint != 0#32

/-- The nodes and the semaphores, with their counts, in the kernel heap. -/
structure Tree (φ ε : Type) where
  node : Addr → Option (Node φ ε)
  semaphore : Addr → Option (BitVec 32)

namespace Tree
variable {φ ε : Type}

def first (s : Tree φ ε) (a : Addr) : Option Addr := (s.node a).bind Node.children

def next (s : Tree φ ε) (a : Addr) : Option Addr := (s.node a).bind Node.nextSibling

def parent (s : Tree φ ε) (a : Addr) : Option Addr := (s.node a).bind Node.parent

def put (s : Tree φ ε) (a : Addr) (node : Node φ ε) : Tree φ ε := { s with node := Function.update s.node a (some node) }

def kfree (s : Tree φ ε) (a : Addr) : Tree φ ε := { s with node := Function.update s.node a none }

def modify (s : Tree φ ε) (a : Addr) (f : Node φ ε → Node φ ε) : Tree φ ε :=
  { s with node := Function.update s.node a ((s.node a).map f) }

def setChildren (s : Tree φ ε) (a : Addr) (children : Option Addr) : Tree φ ε :=
  s.modify a fun node => { node with children := children }

def setNextSibling (s : Tree φ ε) (a : Addr) (next : Option Addr) : Tree φ ε :=
  s.modify a fun node => { node with nextSibling := next }

def addRefcount (s : Tree φ ε) (a : Addr) (n : Int) : Tree φ ε :=
  s.modify a fun node => { node with refcount := node.refcount + n }

/-! ## Lists of siblings -/

-- a list that ends meets no address twice
def siblingFuel : Nat := 2 ^ 32

/-- The first sibling, from `current` on, at which a loop stops. -/
def siblingLoop (s : Tree φ ε) (stops : Node φ ε → Bool) : (fuel : Nat) → (current : Option Addr) → Option (Option Addr)
  | _, none => some none
  | 0, some _ => none
  | fuel + 1, some current => do
      let node ← s.node current
      if stops node then return some current
      siblingLoop s stops fuel node.nextSibling

def siblingWhere (s : Tree φ ε) (stops : Node φ ε → Bool) (current : Option Addr) : Option (Option Addr) :=
  s.siblingLoop stops siblingFuel current

-- the end of `vfs_find_and_create_node`'s search links a node behind its siblings
def appendChild (s : Tree φ ε) (parent new : Addr) : Option (Tree φ ε) := do
  let node ← s.node parent
  match ← s.siblingWhere (fun sibling => sibling.nextSibling.isNone) node.children with
  | none => return s.setChildren parent (some new)
  | some last => return s.setNextSibling last (some new)

/-- Takes a node out of the list of its parent. -/
def unlink (s : Tree φ ε) (a : Addr) : Option (Tree φ ε) := do
  let node ← s.node a
  match node.parent with
  | none => return s
  | some p =>
      let parent ← s.node p
      if parent.children = some a then return s.setChildren p node.nextSibling
      match ← s.siblingWhere (fun sibling => sibling.nextSibling == some a) parent.children with
      | none => return s
      | some before => return s.setNextSibling before node.nextSibling

-- `kfree` of the semaphore of a semaphore node
def kfreeSemaphore (s : Tree φ ε) (node : Node φ ε) : Tree φ ε :=
  match node.semaphore with
  | some sem => if isSemaphore node.flags then { s with semaphore := Function.update s.semaphore sem none } else s
  | none => s

def unlinkAndFreeNode (s : Tree φ ε) (a : Addr) : Option (Tree φ ε) := do
  let node ← s.node a
  let s ← s.unlink a
  return (s.kfreeSemaphore node).kfree a

def cleanupLoop : (fuel : Nat) → (s : Tree φ ε) → (target : Addr) → Option (Tree φ ε)
  | 0, _, _ => none
  | fuel + 1, s, target => do
      let node ← s.node target
      if node.refcount > 0 ∨ node.children ≠ none then return s
      match node.parent with
      | none => s.unlinkAndFreeNode target
      | some p =>
          let parent ← s.node p
          let parentBecameEmpty := parent.children = some target ∧ node.nextSibling = none
          let s ← s.unlinkAndFreeNode target
          if parentBecameEmpty then cleanupLoop fuel s p else return s

-- each round frees a node
def vfsCleanupNodeTree (s : Tree φ ε) (startNode : Addr) : Option (Tree φ ε) := cleanupLoop siblingFuel s startNode

end Tree
end Kerosene.Vfs
