import Kerosene.Lib.Machine
import Kerosene.Lib.Semaphore
import Kerosene.Ramfs.Bytes

/-!
# Pipes of ramfs.c

Any number of processes call `ramfs_pipe_read` and `ramfs_pipe_write` on one pipe, each through
`vfs_read` or `vfs_write`, which take the node lock before the call and give it back after. The
kernel runs with interrupts off, so control moves to another process at an acquire only. A process
is described by where it stands between two acquires.
-/

namespace Kerosene.Ramfs
open Lib

def ramfsPipeSize : Nat := ramfsDatanodeSize * 4

/-! ## The bytes -/

structure PipeData where
  datanode : Datanodes Block
  first : Option Addr
  last : Option Addr
  head : Nat
  tail : Nat

namespace PipeData

-- a datanode read to its end is given back, but for the last one
def consumed (d : PipeData) (head : Addr) (node : Datanode Block) (headOffset : Nat) : PipeData :=
  if headOffset = ramfsDatanodeSize then
    match node.next with
    | some next => { d with datanode := d.datanode.rfree head, first := some next, head := 0 }
    | none => { d with head := 0 }
  else { d with head := headOffset }

/-- The copy loop of `ramfs_pipe_read`, with the bytes that reach the buffer. -/
def readLoop : (fuel : Nat) → PipeData → (remaining : Nat) → List UInt8 → Option (PipeData × List UInt8)
  | _, d, 0, buffer => some (d, buffer)
  | 0, _, _ + 1, _ => none
  | fuel + 1, d, remaining + 1, buffer =>
      match d.first with
      | none => some (d, buffer)
      | some head => do
          let node ← d.datanode head
          let chunkAvail := ramfsDatanodeSize - d.head
          let chunkRead := if remaining + 1 < chunkAvail then remaining + 1 else chunkAvail
          if chunkRead = 0 then return (d, buffer)
          readLoop fuel (d.consumed head node (d.head + chunkRead)) (remaining + 1 - chunkRead)
            (buffer ++ (node.data.toList.drop d.head).take chunkRead)

/-- The copy loop of `ramfs_pipe_write`, with the bytes that are left when datanodes run out. -/
def writeLoop : (fuel : Nat) → PipeData → (remaining : Nat) → List UInt8 → List (Datanodes.Grant Block) →
    Option (PipeData × List UInt8)
  | _, d, 0, buffer, _ => some (d, buffer)
  | 0, _, _ + 1, _, _ => none
  | fuel + 1, d, remaining + 1, buffer, grants =>
      match d.last with
      | none => some (d, buffer)
      | some tail => do
          let node ← d.datanode tail
          let chunkAvail := ramfsDatanodeSize - d.tail
          let chunkWrite := if remaining + 1 < chunkAvail then remaining + 1 else chunkAvail
          let s := d.datanode.setData tail (copyInto node.data d.tail (buffer.take chunkWrite))
          let d := { d with datanode := s, tail := d.tail + chunkWrite }
          let buffer := buffer.drop chunkWrite
          let remaining := remaining + 1 - chunkWrite
          if d.tail = ramfsDatanodeSize then
            match node.next with
            | some next => writeLoop fuel { d with last := some next, tail := 0 } remaining buffer grants
            | none =>
                let (new, s) ← d.datanode.ramfsAllocateDatanodes 1 none [grants.head?.join]
                let s := s.setNext tail new
                match new with
                | none => return ({ d with datanode := s }, buffer)
                | some next =>
                    writeLoop fuel { d with datanode := s, last := some next, tail := 0 } remaining buffer grants.tail
          else writeLoop fuel d remaining buffer grants

end PipeData

/-! ## The calls -/

inductive PipeOp where
  | read (size : Nat)
  | write (buffer : List UInt8)
  deriving DecidableEq

def PipeOp.size : PipeOp → Nat
  | read size => size
  | write buffer => buffer.length

/-- Where a process stands. -/
inductive Phase where
  | idle
  | awaitsEntry (op : PipeOp)
  | entered (op : PipeOp)
  | awaitsFirst (op : PipeOp)
  | granted (op : PipeOp)
  | awaitsLock (op : PipeOp)
  | locked (op : PipeOp)
  | awaitsBulk (op : PipeOp) (total : Nat)
  | copies (op : PipeOp) (total : Nat)
  | returns
  deriving DecidableEq

def Phase.served : Phase → Phase
  | .awaitsEntry op => .entered op
  | .awaitsFirst op => .granted op
  | .awaitsLock op => .locked op
  | .awaitsBulk op total => .copies op total
  | phase => phase

def Phase.runs : Phase → Bool
  | .entered _ | .granted _ | .locked _ | .copies _ _ | .returns => true
  | _ => false

/-- The pipe, the processes, and the bytes taken from writers and handed to readers so far. -/
structure Pipe (π : Type) where
  data : PipeData
  size : Nat
  lock : Semaphore π
  bytesAvailable : Semaphore π
  spaceAvailable : Semaphore π
  phase : π → Phase
  taken : List UInt8
  handed : List UInt8

inductive SemaphoreName where
  | lock
  | bytesAvailable
  | spaceAvailable
  deriving DecidableEq

-- the semaphore a call takes from, and the one it gives to
def PipeOp.takes : PipeOp → SemaphoreName
  | .read _ => .bytesAvailable
  | .write _ => .spaceAvailable

def PipeOp.gives : PipeOp → SemaphoreName
  | .read _ => .spaceAvailable
  | .write _ => .bytesAvailable

namespace Pipe
variable {π : Type} [DecidableEq π]

def semaphore (s : Pipe π) : SemaphoreName → Semaphore π
  | .lock => s.lock
  | .bytesAvailable => s.bytesAvailable
  | .spaceAvailable => s.spaceAvailable

def setSemaphore (s : Pipe π) (name : SemaphoreName) (sem : Semaphore π) : Pipe π :=
  match name with
  | .lock => { s with lock := sem }
  | .bytesAvailable => { s with bytesAvailable := sem }
  | .spaceAvailable => { s with spaceAvailable := sem }

def setPhase (s : Pipe π) (p : π) (phase : Phase) : Pipe π := { s with phase := Function.update s.phase p phase }

def serves (s : Pipe π) (served : List π) : Pipe π :=
  { s with phase := fun p => if p ∈ served then (s.phase p).served else s.phase p }

/-- `semaphore_acquire`: the process goes `onward` or into the line. -/
def acquire (s : Pipe π) (name : SemaphoreName) (p : π) (count : Nat) (onward line : Phase) : Pipe π :=
  match (s.semaphore name).acquire p count with
  | (true, sem) => (s.setSemaphore name sem).setPhase p onward
  | (false, sem) => (s.setSemaphore name sem).setPhase p line

def release (s : Pipe π) (name : SemaphoreName) (count : Nat) : Pipe π :=
  let (served, sem) := (s.semaphore name).release count
  (s.setSemaphore name sem).serves served

def copyRead (s : Pipe π) (total : Nat) : Option (Pipe π × Nat) := do
  let (data, bytes) ← s.data.readLoop total total []
  return ({ s with data := data, size := s.size - bytes.length, handed := s.handed ++ bytes }, bytes.length)

def copyWrite (s : Pipe π) (buffer : List UInt8) (total : Nat) (grants : List (Datanodes.Grant Block)) :
    Option (Pipe π × Nat) := do
  let (data, rest) ← s.data.writeLoop (total + 1) total (buffer.take total) grants
  let written := total - rest.length
  return ({ s with data := data, size := s.size + written, taken := s.taken ++ buffer.take written }, written)

/-- The copy loop of a call and what follows it up to its return. -/
def copy (s : Pipe π) (p : π) (op : PipeOp) (total : Nat) (grants : List (Datanodes.Grant Block)) :
    Option (Pipe π) := do
  let (s, actual) ← match op with
    | .read _ => s.copyRead total
    | .write buffer => s.copyWrite buffer total grants
  return (s.release op.gives actual).setPhase p .returns

def totalOf (s : Pipe π) (op : PipeOp) : Nat :=
  let available := 1 + (s.semaphore op.takes).count
  if op.size < available then op.size else available

/-- One process runs from where it stands to its next acquire that control may leave it at, or to
the release of the lock at the end. -/
def run (s : Pipe π) (p : π) (grants : List (Datanodes.Grant Block)) : Option (Pipe π) :=
  match s.phase p with
  | .entered op =>
      if op.size = 0 then some (s.setPhase p .returns)
      else some ((s.release .lock 1).acquire op.takes p 1 (.granted op) (.awaitsFirst op))
  | .granted op => some (s.acquire .lock p 1 (.locked op) (.awaitsLock op))
  | .locked op =>
      let total := s.totalOf op
      if total > 1 then
        -- an acquire that does not block goes on at once
        match (s.semaphore op.takes).acquire p (total - 1) with
        | (true, sem) => (s.setSemaphore op.takes sem).copy p op total grants
        | (false, sem) => some ((s.setSemaphore op.takes sem).setPhase p (.awaitsBulk op total))
      else s.copy p op total grants
  | .copies op total => s.copy p op total grants
  | .returns => some ((s.release .lock 1).setPhase p .idle)
  | _ => none

/-- `vfs_read` and `vfs_write` up to the call. -/
def call (s : Pipe π) (p : π) (op : PipeOp) : Option (Pipe π) :=
  match s.phase p with
  | .idle => some (s.acquire .lock p 1 (.entered op) (.awaitsEntry op))
  | _ => none

inductive PipeInput (π : Type) where
  | call (p : π) (op : PipeOp)
  | run (p : π) (grants : List (Datanodes.Grant Block))

def step (s : Pipe π) : PipeInput π → Option (Pipe π)
  | .call p op => s.call p op
  | .run p grants => s.run p grants

/-- Datanode allocation never fails: `rmalloc` answers every time, with a block not in use. -/
structure Granted (s : Pipe π) (grants : List (Datanodes.Grant Block)) : Prop where
  enough : ramfsPipeSize / ramfsDatanodeSize < grants.length
  fresh : ∀ grant ∈ grants, ∃ a stale, grant = some (a, stale) ∧ s.data.datanode a = none
  apart : (grants.map fun grant => grant.map Prod.fst).Nodup

def Legal (s : Pipe π) : PipeInput π → Prop
  | .call p _ => s.phase p = .idle
  | .run p grants => (s.phase p).runs ∧ s.Granted grants

def machine (π : Type) [DecidableEq π] : Machine (Pipe π) (PipeInput π) where
  Legal := Legal
  step := step

end Pipe
end Kerosene.Ramfs
