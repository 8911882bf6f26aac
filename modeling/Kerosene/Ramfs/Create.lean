import Kerosene.Ramfs.DirectoryRun

/-!
# Creating entries in ramfs.c

`ramfs_node_create`, `ramfs_mkdir` and `ramfs_create_special_node` allocate the first datanode of a new
entry and add it to its directory; `ramfs_update_entry` writes a node back.
-/

namespace Kerosene.Ramfs

def fsNodeFlagHidden : BitVec 32 := 1#32 <<< 4

/-- What the allocators answer in one call: `rmalloc` for the first datanode, and the answers for the
entry itself and for the two dots of a directory. -/
structure CreateGrants where
  datanode : Datanodes.Grant Entries
  entry : Grants
  dot : Grants
  dotdot : Grants

namespace Heap

def ramfsNodeCreate (h : Heap) (parent : Addr) (name : Name) (flags : BitVec 32) (grants : CreateGrants) :
    Option (Except FsErr FsNode × Heap) := do
  match ← h.datanode.ramfsAllocateDatanodes 1 none [grants.datanode] with
  | (none, s) => return (.error .notEnoughSpace, h.withDatanodes s)
  | (some chain, s) =>
      (h.withDatanodes s).ramfsAddEntry parent name (some chain) (flags ||| fsNodeTypeFile) 0#32 grants.entry

-- the dot and the dotdot of a new directory
def addDots (h : Heap) (parent : Addr) (node : FsNode) (grants : CreateGrants) : Option (Except FsErr FsNode × Heap) := do
  match ← h.ramfsAddEntry node.nodeAddr dot (h.chainOf node.nodeAddr) (fsNodeTypeDirectory ||| fsNodeFlagHidden) 0#32 grants.dot with
  | (.error err, h) => return (.error err, h)
  | (.ok _, h) =>
      match ← h.ramfsAddEntry node.nodeAddr dotdot (h.chainOf parent) (fsNodeTypeDirectory ||| fsNodeFlagHidden) 0#32 grants.dotdot with
      | (.error err, h) => return (.error err, h)
      | (.ok _, h) => return (.ok node, h)

def ramfsMkdir (h : Heap) (parent : Addr) (name : Name) (flags : BitVec 32) (grants : CreateGrants) :
    Option (Except FsErr FsNode × Heap) := do
  match ← h.datanode.ramfsAllocateDatanodes 1 (some noEntries) [grants.datanode] with
  | (none, s) => return (.error .notEnoughSpace, h.withDatanodes s)
  | (some chain, s) =>
      match ← (h.withDatanodes s).ramfsAddEntry parent name (some chain) (fsNodeTypeDirectory ||| flags) 0#32 grants.entry with
      | (.error err, h) => return (.error err, h)
      | (.ok node, h) => h.addDots parent node grants

def ramfsCreateSpecialNode (h : Heap) (parent : Addr) (name : Name) (type : BitVec 32) (grants : CreateGrants) :
    Option (Except FsErr FsNode × Heap) := do
  if fsNodeType type = fsNodeTypePipe then
    match ← h.datanode.ramfsAllocateDatanodes 1 none [grants.datanode] with
    | (none, s) => return (.error .notEnoughSpace, h.withDatanodes s)
    | (some chain, s) => (h.withDatanodes s).ramfsAddEntry parent name (some chain) type 0#32 grants.entry
  else h.ramfsAddEntry parent name none type 0#32 grants.entry

-- sizes and timestamps apart
def ramfsUpdateEntry (h : Heap) (node : Addr) (flags : BitVec 32) (semaphore : Option Addr) : Option Heap := do
  let ramnode ← h.ramnode node
  let data := if fsNodeType flags = fsNodeTypeSemaphore then semaphore else ramnode.data
  return h.putRamnode node { ramnode with flags := flags, data := data }

end Heap
end Kerosene.Ramfs
