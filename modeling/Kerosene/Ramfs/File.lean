import Kerosene.Ramfs.Bytes
import Kerosene.Ramfs.Directory

/-!
# Writing a regular file

`file_open` and `file_write` of file_op.c over `ramfs_file_open`, `ramfs_file_write` and `write_file`
of ramfs.c, for nodes of type `FS_NODE_TYPE_FILE`. Timestamps are left out. The ramfs heap is 16 MiB
at most, so that a size or a position fits in an `int`; both are natural numbers here.
-/

namespace Kerosene.Ramfs

/-! ## `write_file` -/

/-- Where a write stands: `*start_datanode`, and what `rmalloc` will answer. -/
structure Cursor where
  datanode : Datanodes Block
  start : Addr
  grants : List (Datanodes.Grant Block)

namespace Cursor

-- `(*start_datanode)->next = ramfs_allocate_datanodes(count, false)`, and whether it is not null
def allocateNext (c : Cursor) (count : Nat) : Option (Bool × Cursor) := do
  let (new, s) ← c.datanode.ramfsAllocateDatanodes count none c.grants
  return (new.isSome, ⟨s.setNext c.start new, c.start, c.grants.drop count⟩)

-- `*start_datanode = (*start_datanode)->next`
def follow (c : Cursor) : Option Cursor := do
  let next ← c.datanode.link c.start
  return ⟨c.datanode, next, c.grants⟩

-- on to the next datanode, allocated where there is none
def advance (c : Cursor) (count : Nat) : Option (Bool × Cursor) := do
  let node ← c.datanode c.start
  match node.next with
  | some _ => return (true, ← c.follow)
  | none =>
      let (allocated, c) ← c.allocateNext count
      if allocated then return (true, ← c.follow) else return (false, c)

-- `memcpy((*start_datanode)->data + offset, bytes, length)`
def store (c : Cursor) (offset : Nat) (bytes : List UInt8) : Option Cursor := do
  let node ← c.datanode c.start
  return ⟨c.datanode.setData c.start (copyInto node.data offset bytes), c.start, c.grants⟩

abbrev Outcome := FsErr × Nat × Cursor

def writeLoop : (fuel : Nat) → Cursor → List UInt8 → (actual : Nat) → Option Outcome
  | 0, _, _, _ => none
  | fuel + 1, c, buffer, actual => do
      let writeSize := if buffer.length < ramfsDatanodeSize then buffer.length else ramfsDatanodeSize
      let c ← c.store 0 (buffer.take writeSize)
      let actual := actual + writeSize
      if buffer.length - writeSize = 0 then return (.success, actual, c)
      match c.datanode.link c.start with
      | none => return (.eof, actual, c)
      | some _ => writeLoop fuel (← c.follow) (buffer.drop writeSize) actual

-- the part of `write_file` where the offset is 0
def writeAligned (c : Cursor) (buffer : List UInt8) (actual : Nat) : Option Outcome := do
  let estimatedDatanode := buffer.length / ramfsDatanodeSize
  if estimatedDatanode > 0 then
    let _ ← c.datanode c.start
    -- what followed `*start_datanode` is dropped
    let (allocated, c) ← c.allocateNext estimatedDatanode
    if allocated then c.writeLoop (buffer.length + 1) buffer actual else return (.notEnoughSpace, actual, c)
  else c.writeLoop (buffer.length + 1) buffer actual

def writeWithin (c : Cursor) (buffer : List UInt8) (dataOffset : Nat) : Option Outcome := do
  if dataOffset > 0 then
    let fullWriteSize := ramfsDatanodeSize - dataOffset
    let writeSize := if buffer.length ≤ fullWriteSize then buffer.length else fullWriteSize
    let c ← c.store dataOffset (buffer.take writeSize)
    if buffer.length - writeSize = 0 then return (.success, writeSize, c)
    let (there, c) ← c.advance 1
    if there then c.writeAligned (buffer.drop writeSize) writeSize else return (.notEnoughSpace, writeSize, c)
  else c.writeAligned buffer 0

def writeFile (c : Cursor) (buffer : List UInt8) (dataOffset : Nat) : Option Outcome := do
  -- one round leaves an offset below the size, so that the loop is a test
  if dataOffset ≥ ramfsDatanodeSize then
    let (there, c) ← c.advance (dataOffset / ramfsDatanodeSize)
    if there then c.writeWithin buffer (dataOffset - ramfsDatanodeSize * (dataOffset / ramfsDatanodeSize))
    else return (.notEnoughSpace, 0, c)
  else c.writeWithin buffer dataOffset

end Cursor

/-! ## Files and descriptors -/

abbrev FileMode := BitVec 16

def fileOpenRead : FileMode := 1#16 <<< 0
def fileOpenWrite : FileMode := 1#16 <<< 1
def fileOpenAppend : FileMode := 1#16 <<< 6

def FileMode.has (mode bit : FileMode) : Bool := mode &&& bit != 0#16

structure File where
  datanode : Datanodes Block
  datanodeChain : Option Addr
  size : Nat

structure FileDescription where
  mode : FileMode
  position : Nat
  currentDatanode : Option Addr
  lastDatanode : Option Addr
  deriving DecidableEq

def lastLoop (s : Datanodes Block) : (fuel : Nat) → Addr → Option Addr
  | 0, _ => none
  | fuel + 1, a => do
      let node ← s a
      match node.next with
      | none => return a
      | some next => lastLoop s fuel next

def ramfsGetLastDatanodeOfChain (s : Datanodes Block) : Option Addr → Option (Option Addr)
  | none => some none
  | some a => (lastLoop s chainFuel a).map some

namespace File

def ramfsFileOpen (f : File) (file : FileDescription) (mode : FileMode) : Option FileDescription := do
  let chain := f.datanodeChain
  let current := if mode.has fileOpenWrite || mode.has fileOpenRead then chain else file.currentDatanode
  if mode.has fileOpenAppend then
    let last ← ramfsGetLastDatanodeOfChain f.datanode chain
    return { file with currentDatanode := current, lastDatanode := last }
  return { file with currentDatanode := current }

/-- `file_open` in a slot of the descriptor table, for modes without `FILE_OPEN_TRUNCATE` and
`FILE_OPEN_ONLYDIR`. -/
def fileOpen (f : File) (slot : FileDescription) (mode : FileMode) : Option FileDescription :=
  f.ramfsFileOpen { slot with mode := mode, position := 0 } mode

structure WriteResult where
  err : FsErr
  actual : Nat
  file : File
  description : FileDescription

def dataOffsetOf (position : Nat) : Nat :=
  if position ≠ 0 ∧ position % ramfsDatanodeSize = 0 then ramfsDatanodeSize else position % ramfsDatanodeSize

def ramfsFileWrite (f : File) (file : FileDescription) (buffer : List UInt8) (grants : List (Datanodes.Grant Block)) :
    Option WriteResult := do
  if file.mode.has fileOpenAppend then
    let start ← file.lastDatanode
    let (err, actual, c) ← Cursor.writeFile ⟨f.datanode, start, grants⟩ buffer (dataOffsetOf f.size)
    return ⟨err, actual, { f with datanode := c.datanode }, { file with lastDatanode := some c.start }⟩
  else
    let start ← file.currentDatanode
    let (err, actual, c) ← Cursor.writeFile ⟨f.datanode, start, grants⟩ buffer (dataOffsetOf file.position)
    return ⟨err, actual, { f with datanode := c.datanode }, { file with currentDatanode := some c.start }⟩

def fileWrite (f : File) (file : FileDescription) (buffer : List UInt8) (grants : List (Datanodes.Grant Block)) :
    Option WriteResult := do
  if file.mode.has fileOpenWrite then
    let r ← f.ramfsFileWrite file buffer grants
    if r.err ≠ .success then return r
    if file.mode.has fileOpenAppend then
      let size := r.file.size + r.actual
      return { r with file := { r.file with size := size }, description := { r.description with position := size } }
    else
      let position := r.description.position + r.actual
      let size := if position > r.file.size then position else r.file.size
      return { r with file := { r.file with size := size }, description := { r.description with position := position } }
  else return ⟨.failed, 0, f, file⟩

end File
end Kerosene.Ramfs
