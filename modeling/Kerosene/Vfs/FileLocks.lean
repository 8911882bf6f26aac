import Kerosene.Lib.Semaphore
import Kerosene.Vfs.Frames
import Kerosene.Vfs.OpenFiles

/-!
# The locks of files

Every node has a semaphore `lock`. `vfs_read`, `vfs_write`, `vfs_seek` and `vfs_close` take it and
give it back by the number of the descriptor, and so do the system calls of the same effect. A read or
write on a pipe gives the lock back while it waits for bytes or space. The kernel runs with interrupts
off, so control moves to another process at an acquire only. A call that its checks refuse changes
nothing here and is left out.
-/

namespace Kerosene.Vfs
open Lib Ramfs

def isPipe (flags : BitVec 32) : Bool := fsNodeType flags == fsNodeTypePipe

inductive FileOp where
  | read (size : Nat)
  | write (size : Nat)
  | seek
  | close
  | lock
  deriving DecidableEq

/-- Where a process stands in a call on a descriptor. -/
inductive LockPhase where
  | idle
  -- in line for the lock
  | enters (fd : Fin maxFile) (op : FileOp)
  | inside (fd : Fin maxFile) (op : FileOp)
  -- a call on a pipe that gave the lock back
  | away (fd : Fin maxFile) (op : FileOp)
  | returns (fd : Fin maxFile) (op : FileOp)
  | back (fd : Fin maxFile) (op : FileOp)
  deriving DecidableEq

namespace LockPhase

def served : LockPhase → LockPhase
  | enters fd op => inside fd op
  | returns fd op => back fd op
  | phase => phase

-- the descriptor whose lock a process is in line for, or has
def waits : LockPhase → Option (Fin maxFile)
  | enters fd _ | returns fd _ => some fd
  | _ => none

def holds : LockPhase → Option (Fin maxFile)
  | inside fd _ | back fd _ => some fd
  | _ => none

def op : LockPhase → Option FileOp
  | idle => none
  | enters _ op | inside _ op | away _ op | returns _ op | back _ op => some op

end LockPhase

/-- The files with the locks of their nodes, the processes, and how many of each lock a process has by
`SYSCALL_LOCK`. -/
structure FileLocks (σ φ ε π : Type) where
  files : Files σ φ ε π
  lock : Addr → Semaphore π
  phase : π → LockPhase
  userLocks : π → Addr → Nat

inductive LockInput (σ φ ε π : Type) where
  | open (call : OpenCall φ ε π)
  | call (p : π) (fd : Fin maxFile) (op : FileOp)
  | unlock (p : π) (fd : Fin maxFile)
  -- a process that has the processor goes on
  | run (p : π)
  | disk (disk : σ)

namespace FileLocks
variable {σ φ ε π : Type} [DecidableEq φ] [DecidableEq π]

def setPhase (s : FileLocks σ φ ε π) (p : π) (phase : LockPhase) : FileLocks σ φ ε π :=
  { s with phase := Function.update s.phase p phase }

def setLock (s : FileLocks σ φ ε π) (a : Addr) (sem : Semaphore π) : FileLocks σ φ ε π :=
  { s with lock := Function.update s.lock a sem }

def setUserLocks (s : FileLocks σ φ ε π) (p : π) (a : Addr) (n : Nat) : FileLocks σ φ ε π :=
  { s with userLocks := Function.update s.userLocks p (Function.update (s.userLocks p) a n) }

/-- `semaphore_acquire` of a lock: the process goes `onward` or into the line. -/
def acquire (s : FileLocks σ φ ε π) (a : Addr) (p : π) (onward line : LockPhase) : FileLocks σ φ ε π :=
  match (s.lock a).acquire p 1 with
  | (true, sem) => (s.setLock a sem).setPhase p onward
  | (false, sem) => (s.setLock a sem).setPhase p line

def release (s : FileLocks σ φ ε π) (a : Addr) : FileLocks σ φ ε π :=
  let (served, sem) := (s.lock a).release 1
  { s.setLock a sem with phase := fun p => if p ∈ served then (s.phase p).served else s.phase p }

def vfsUnlock (s : FileLocks σ φ ε π) (p : π) (fd : Fin maxFile) : FileLocks σ φ ε π :=
  match s.files.table p fd with
  | none => s
  | some node => s.release node

-- `file_read` or `file_write`; on a pipe, up to the wait for bytes or space
def transfer (s : FileLocks σ φ ε π) (p : π) (fd : Fin maxFile) (op : FileOp) (size : Nat) :
    Option (FileLocks σ φ ε π) := do
  let node ← s.files.table p fd
  let found ← s.files.tree.node node
  if isPipe found.flags ∧ size ≠ 0 then return (s.setPhase p (.away fd op)).release node
  return (s.setPhase p .idle).vfsUnlock p fd

/-- What a process does that has the lock for its call. -/
def inside (s : FileLocks σ φ ε π) (p : π) (fd : Fin maxFile) : FileOp → Option (FileLocks σ φ ε π)
  | .read size => s.transfer p fd (.read size) size
  | .write size => s.transfer p fd (.write size) size
  | .seek => some ((s.setPhase p .idle).vfsUnlock p fd)
  | .close => do
      let files ← s.files.vfsClose p fd.val
      return ({ s with files := files }.setPhase p .idle).vfsUnlock p fd
  | .lock => do
      let node ← s.files.table p fd
      return (s.setUserLocks p node (s.userLocks p node + 1)).setPhase p .idle

def run (s : FileLocks σ φ ε π) (p : π) : Option (FileLocks σ φ ε π) :=
  match s.phase p with
  | .inside fd op => s.inside p fd op
  | .away fd op => do
      let node ← s.files.table p fd
      return s.acquire node p (.back fd op) (.returns fd op)
  | .back fd _ => some ((s.setPhase p .idle).vfsUnlock p fd)
  | _ => none

-- a node that a call loads or creates comes with a new lock
def withFiles (s : FileLocks σ φ ε π) (files : Files σ φ ε π) : FileLocks σ φ ε π :=
  { s with
    files := files
    lock := fun a => if (s.files.tree.node a).isNone ∧ (files.tree.node a).isSome then ⟨1, []⟩ else s.lock a }

def step (V : Volumes φ) (S : Store σ φ ε) (s : FileLocks σ φ ε π) : LockInput σ φ ε π → Option (FileLocks σ φ ε π)
  | .open call => do
      if s.phase call.process ≠ .idle then none
      let (_, files) ← s.files.vfsOpen V S call
      return s.withFiles files
  | .call p fd op =>
      if s.phase p ≠ .idle then none
      else match s.files.table p fd with
      | none => some s
      | some node => some (s.acquire node p (.inside fd op) (.enters fd op))
  | .unlock p fd =>
      if s.phase p ≠ .idle then none
      else match s.files.table p fd with
      | none => some s
      | some node => some ((s.setUserLocks p node (s.userLocks p node - 1)).release node)
  | .run p => s.run p
  | .disk disk => some { s with files := { s.files with disk := disk } }

/-- `kmalloc` answers with free blocks, and every step `meets` a condition. -/
def machine (meets : FileLocks σ φ ε π → LockInput σ φ ε π → Prop) (V : Volumes φ) (S : Store σ φ ε) :
    Machine (FileLocks σ φ ε π) (LockInput σ φ ε π) where
  Legal s input := meets s input ∧ ∀ call, input = .open call → FreshAnswers s.files.tree.Free call.kmalloc.nodes
  step := step V S

end FileLocks
end Kerosene.Vfs
