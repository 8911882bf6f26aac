import Kerosene.Lib.Machine
import Kerosene.Vfs.Lookup
import Mathlib.Data.Fintype.Prod

/-!
# `vfs_open` and `vfs_close`

Both run with interrupts off, the wait for the lock in `vfs_close` apart, which comes before it touches
the tree. So each call is one step. A descriptor is described by its node.
-/

namespace Kerosene.Vfs
open Lib Ramfs

def maxFile : Nat := 128

theorem one_lt_maxFile : 1 < maxFile := by decide
theorem zero_lt_maxFile : 0 < maxFile := by decide

theorem descriptor_lt {fd : Int} (small : 0 ≤ fd ∧ fd.toNat < maxFile) : fd.toNat < maxFile := small.2

/-- The tree, the filesystems, and the descriptor tables of the processes `π`. -/
structure Files (σ φ ε π : Type) where
  tree : Tree φ ε
  disk : σ
  table : π → Fin maxFile → Option Addr
  fileCount : π → Nat
  cwd : π → Option Addr

structure OpenCall (φ ε π : Type) where
  process : π
  path : Name
  mode : FileMode
  -- what `validate_user_string` says of the path
  validated : Bool
  kmalloc : Kmalloc φ ε

namespace Files
variable {σ φ ε π : Type} [DecidableEq φ] [DecidableEq π]

def setTable (s : Files σ φ ε π) (p : π) (fd : Fin maxFile) (node : Option Addr) : Files σ φ ε π :=
  { s with table := Function.update s.table p (Function.update (s.table p) fd node) }

def freeSlot (table : Fin maxFile → Option Addr) : Option (Fin maxFile) :=
  (List.finRange maxFile).find? fun fd => (table fd).isNone

-- `file_open`, the count of references and of files, or the way out with -1
def openSlot (s : Files σ φ ε π) (p : π) (fd : Fin maxFile) (node : Addr) (mode : FileMode) :
    Option (Option (Fin maxFile) × Files σ φ ε π) := do
  let found ← s.tree.node node
  if mode.has fileOpenOnlydir ∧ ¬ isDirectory found.flags then
    return (none, { s with tree := ← s.tree.vfsCleanupNodeTree node })
  -- `node_reset(file->node)` follows the null pointer of a free slot
  if mode.has fileOpenWrite ∧ mode.has fileOpenTruncate then none
  let s := (s.setTable p fd (some node))
  return (some fd, { s with
    tree := s.tree.addRefcount node 1
    fileCount := Function.update s.fileCount p (s.fileCount p + 1) })

def vfsOpen (V : Volumes φ) (S : Store σ φ ε) (s : Files σ φ ε π) (call : OpenCall φ ε π) :
    Option (Option (Fin maxFile) × Files σ φ ε π) :=
  if ¬ call.validated ∨ s.fileCount call.process ≥ maxFile then some (none, s)
  else match s.cwd call.process with
  | none => some (none, s)
  | some cwd => do
      let found ← vfsFindAndCreateNode V S s.disk s.tree call.path cwd call.mode 0#32 call.kmalloc
      let s := { s with tree := found.tree, disk := found.disk }
      match found.node with
      | none => return (none, s)
      | some node =>
          match freeSlot (s.table call.process) with
          | none => return (none, { s with tree := ← s.tree.vfsCleanupNodeTree node })
          | some fd => s.openSlot call.process fd node call.mode

def vfsClose (s : Files σ φ ε π) (p : π) (fileDescriptor : Int) : Option (Files σ φ ε π) :=
  if small : 0 ≤ fileDescriptor ∧ fileDescriptor.toNat < maxFile then
    let fd : Fin maxFile := ⟨fileDescriptor.toNat, descriptor_lt small⟩
    match s.table p fd with
    | none => some s
    | some node => do
        let _ ← s.tree.node node
        let tree ← (s.tree.addRefcount node (-1)).vfsCleanupNodeTree node
        let s := s.setTable p fd none
        return { s with tree := tree, fileCount := Function.update s.fileCount p (s.fileCount p - 1) }
  else some s

end Files
end Kerosene.Vfs
