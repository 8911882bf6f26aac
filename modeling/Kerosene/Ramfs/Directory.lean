import Kerosene.Ramfs.Datanodes

/-!
# Directories of ramfs.c

A datanode of a directory holds 128 entries. An entry is the address of a ramnode, or one of the two
marks `END_ENTRY` and `EMPTY_ENTRY`, which no block of the heap has for an address. Timestamps, the
lock of a ramnode and the parts of its union that only pipes have are left out.
-/

namespace Kerosene.Ramfs

-- the bytes of a C string before its terminating zero
abbrev Name := List UInt8

def filenameLimit : Nat := 256
def directoryEntryCount : Nat := 128

inductive FsErr where
  | success
  | failed
  | eof
  | entryExisted
  | notEnoughSpace
  | notFound
  | targetNotFound
  | maxDepthReached
  | dirNotEmpty
  | notDir
  | notSupported
  deriving DecidableEq

theorem FsErr.eof_ne_success : FsErr.eof ≠ .success := by decide

inductive Slot where
  | endEntry
  | emptyEntry
  | ramnode (a : Addr)
  deriving DecidableEq

abbrev Entries := Vector Slot 128

def noEntries : Entries := Vector.replicate 128 .endEntry

def fsNodeTypeMask : BitVec 32 := 0b1111#32
def fsNodeTypeFile : BitVec 32 := 0b0000#32
def fsNodeTypeDirectory : BitVec 32 := 0b0001#32
def fsNodeTypeMemory : BitVec 32 := 0b0011#32
def fsNodeTypePipe : BitVec 32 := 0b0100#32
def fsNodeTypeSemaphore : BitVec 32 := 0b0101#32

def fsNodeType (flags : BitVec 32) : BitVec 32 := flags &&& fsNodeTypeMask

-- `data` is the first word of the union: the datanode chain, the memory or the semaphore
structure Ramnode where
  name : Name
  flags : BitVec 32
  size : BitVec 32
  data : Option Addr

structure FsNode where
  name : Name
  flags : BitVec 32
  size : BitVec 32
  nodeAddr : Addr

structure Heap where
  ramnode : Addr → Option Ramnode
  datanode : Datanodes Entries

/-- What the allocators answer in one `ramfs_add_entry`: `rmalloc` for the ramnode, with the word it
held where the union comes to lie, `semaphore_create`, and `rmalloc` for one more datanode. -/
structure Grants where
  ramnode : Option Addr
  stale : Option Addr
  semaphores : Bool
  datanode : Option Addr

namespace Heap

def withDatanodes (h : Heap) (datanode : Datanodes Entries) : Heap := { h with datanode := datanode }

def putRamnode (h : Heap) (a : Addr) (node : Ramnode) : Heap :=
  { h with ramnode := Function.update h.ramnode a (some node) }

def rfreeRamnode (h : Heap) (a : Addr) : Heap := { h with ramnode := Function.update h.ramnode a none }

def setEntry (h : Heap) (a : Addr) (entryId : Nat) (slot : Slot) : Heap :=
  h.withDatanodes (Function.update h.datanode a
    ((h.datanode a).map fun node => ⟨node.next, node.data.setIfInBounds entryId slot⟩))

def createNewNode (h : Heap) (name : Name) (flags size : BitVec 32) (data : Option Addr) (grants : Grants) :
    Option (Addr × Heap) := do
  let node ← grants.ramnode
  -- a ramnode without its semaphores is given back
  if !grants.semaphores then none
  let type := fsNodeType flags
  let word := if type ∈ [fsNodeTypeDirectory, fsNodeTypeFile, fsNodeTypePipe, fsNodeTypeMemory,
    fsNodeTypeSemaphore] then data else grants.stale
  return (node, h.putRamnode node ⟨name.take (filenameLimit - 1), flags, size, word⟩)

def newRamnode (name : Name) (flags size : BitVec 32) (data : Option Addr) (grants : Grants) : Ramnode :=
  ⟨name, flags, size, if fsNodeType flags ∈ [fsNodeTypeDirectory, fsNodeTypeFile, fsNodeTypePipe, fsNodeTypeMemory,
    fsNodeTypeSemaphore] then data else grants.stale⟩

def toFsNode (a : Addr) (node : Ramnode) : FsNode := ⟨node.name, node.flags, node.size, a⟩

/-! ## The loops over a directory -/

/-- How a round of a loop body ends: `continue`, `break` or `return`. -/
inductive Round (β ρ : Type) where
  | next (b : β)
  | stop (b : β)
  | ret (r : ρ)

def scanEntries {β ρ : Type} (body : Nat → Slot → β → Option (Round β ρ)) :
    List Slot → (entryId : Nat) → β → Option (β ⊕ ρ)
  | [], _, b => some (.inl b)
  | slot :: slots, entryId, b => do
      match ← body entryId slot b with
      | .next b => scanEntries body slots (entryId + 1) b
      | .stop b => return .inl b
      | .ret r => return .inr r

/-- `while(true)` over the datanodes with a `for` over the entries in it; the datanode that ends the
chain is given back too. -/
def walkEntries {β ρ : Type} (h : Heap) (body : Addr → Nat → Slot → β → Option (Round β ρ)) :
    (fuel : Nat) → Addr → β → Option ((Addr × β) ⊕ ρ)
  | 0, _, _ => none
  | fuel + 1, a, b => do
      let node ← h.datanode a
      match ← scanEntries (body a) node.data.toList 0 b with
      | .inr r => return .inr r
      | .inl b => match node.next with
          | none => return .inl (a, b)
          | some next => walkEntries h body fuel next b

def trailingRound (a : Addr) (entryId : Nat) (slot : Slot) (start : Option (Addr × Nat)) :
    Option (Round (Option (Addr × Nat)) (Option (Addr × Nat))) :=
  match slot with
  | .endEntry => some (.ret start)
  | .emptyEntry => some (.next (start.or (some (a, entryId))))
  | .ramnode _ => some (.next none)

def clearFrom (entries : Entries) (first : Nat) : Entries :=
  Vector.ofFn fun i => if i < first then entries[i] else .endEntry

def fixEmptyEntries (h : Heap) (chain : Addr) : Option Heap := do
  let start := match ← walkEntries h trailingRound chainFuel chain none with
    | .inl (_, start) => start
    | .inr start => start
  match start with
  | none => return h
  | some (startNode, firstEmptyEntryId) =>
      let node ← h.datanode startNode
      let s := h.datanode.setData startNode (clearFrom node.data firstEmptyEntryId)
      let s ← s.removeDatanodeChain node.next
      return h.withDatanodes (s.setNext startNode none)

/-! ## Iteration -/

structure DirectoryIterator where
  currentIndex : Int
  currentDatanode : Addr

def ramfsSetupDirectoryIterator (h : Heap) (node : Addr) : Option DirectoryIterator := do
  let chain ← (← h.ramnode node).data
  return ⟨-1, chain⟩

-- `current_index++`, and on to the next datanode; null when there is none
def advance (h : Heap) (iter : DirectoryIterator) : Option (Option DirectoryIterator) := do
  if iter.currentIndex + 1 = directoryEntryCount then
    let node ← h.datanode iter.currentDatanode
    return node.next.map fun next => ⟨0, next⟩
  return some ⟨iter.currentIndex + 1, iter.currentDatanode⟩

def entryAt (h : Heap) (iter : DirectoryIterator) : Option Slot := do
  let node ← h.datanode iter.currentDatanode
  node.data.toList[iter.currentIndex.toNat]?

def skipEmpty (h : Heap) : (fuel : Nat) → DirectoryIterator → Option (Option (Slot × DirectoryIterator))
  | 0, _ => none
  | fuel + 1, iter => do
      let slot ← h.entryAt iter
      if slot = .emptyEntry then
        match ← h.advance iter with
        | none => return none
        | some iter => skipEmpty h fuel iter
      else return some (slot, iter)

def ramfsIterateDirectory (h : Heap) (iter : DirectoryIterator) :
    Option (Except FsErr (FsNode × DirectoryIterator)) := do
  match ← h.advance iter with
  | none => return .error .eof
  | some iter =>
      match ← h.skipEmpty (chainFuel * directoryEntryCount) iter with
      | none | some (.endEntry, _) | some (.emptyEntry, _) => return .error .eof
      | some (.ramnode a, iter) =>
          let node ← h.ramnode a
          return .ok (toFsNode a node, iter)

/-- `ramfs_iterate_directory` until it reports `ERR_FS_EOF`. -/
def iterateAll (h : Heap) : (fuel : Nat) → DirectoryIterator → Option (List FsNode)
  | 0, _ => none
  | fuel + 1, iter => do
      match ← h.ramfsIterateDirectory iter with
      | .error _ => return []
      | .ok (node, iter) => return node :: (← iterateAll h fuel iter)

def listDirectory (h : Heap) (node : Addr) : Option (List FsNode) := do
  h.iterateAll (chainFuel * directoryEntryCount + 1) (← h.ramfsSetupDirectoryIterator node)

/-! ## `ramfs_add_entry` -/

def addRound (h : Heap) (name : Name) (a : Addr) (entryId : Nat) (slot : Slot) (empty : Option (Addr × Nat)) :
    Option (Round (Option (Addr × Nat)) Unit) :=
  match slot with
  | .endEntry => some (.stop (empty.or (some (a, entryId))))
  | .emptyEntry => some (.next (empty.or (some (a, entryId))))
  | .ramnode current => do
      let node ← h.ramnode current
      return if node.name = name then .ret () else .next empty

def ramfsAddEntry (h : Heap) (parent : Addr) (name : Name) (data : Option Addr) (flags size : BitVec 32)
    (grants : Grants) : Option (Except FsErr FsNode × Heap) := do
  let chain ← (← h.ramnode parent).data
  match ← walkEntries h (h.addRound name) chainFuel chain none with
  | .inr _ => return (.error .entryExisted, h)
  | .inl (finalDatanode, empty) =>
      match h.createNewNode name flags size data grants with
      | none => return (.error .notEnoughSpace, h)
      | some (ramnode, h) =>
          let node ← h.ramnode ramnode
          let (a, emptyEntry) ← empty
          let entry ← (← h.datanode a).data.toList[emptyEntry]?
          if entry = .endEntry then
            if emptyEntry < directoryEntryCount - 1 then
              return (.ok (toFsNode ramnode node),
                (h.setEntry a (emptyEntry + 1) .endEntry).setEntry a emptyEntry (.ramnode ramnode))
            else match grants.datanode with
              | none => return (.error .notEnoughSpace, h.rfreeRamnode ramnode)
              | some newDatanode =>
                  let s := (h.datanode.put newDatanode ⟨none, noEntries⟩).setNext finalDatanode (some newDatanode)
                  return (.ok (toFsNode ramnode node), (h.withDatanodes s).setEntry a emptyEntry (.ramnode ramnode))
          else return (.ok (toFsNode ramnode node), h.setEntry a emptyEntry (.ramnode ramnode))

/-! ## `ramfs_remove_entry` -/

def dot : Name := ".".toUTF8.toList
def dotdot : Name := "..".toUTF8.toList

theorem dots_bytes : dot = [0x2e] ∧ dotdot = [0x2e, 0x2e] := by decide +kernel

def contentRound (h : Heap) (_ : Addr) (_ : Nat) (slot : Slot) (_ : Unit) : Option (Round Unit Unit) :=
  match slot with
  | .endEntry => some (.stop ())
  | .emptyEntry => some (.ret ())
  | .ramnode a => do
      let node ← h.ramnode a
      return if node.name ≠ dot ∧ node.name ≠ dotdot then .ret () else .next ()

/-- The check that a directory to be removed with its content is empty. -/
def passesEmptinessCheck (h : Heap) (removeNode : FsNode) : Option Bool := do
  let chain ← (← h.ramnode removeNode.nodeAddr).data
  match ← walkEntries h h.contentRound chainFuel chain () with
  | .inl _ => return true
  | .inr _ => return false

def findRound (target : Addr) (a : Addr) (entryId : Nat) (slot : Slot) (_ : Unit) :
    Option (Round Unit (Addr × Nat)) :=
  match slot with
  | .endEntry => some (.stop ())
  | .emptyEntry => some (.next ())
  | .ramnode current => some (if current = target then .ret (a, entryId) else .next ())

def dropEntry (h : Heap) (chain a : Addr) (entryId : Nat) : Option Heap := do
  let entries := (← h.datanode a).data.toList
  if entryId < directoryEntryCount - 1 then
    if entries[entryId + 1]? = some .endEntry then
      let h := h.setEntry a entryId .endEntry
      -- there may be empty entries in front
      if entryId = 0 ∨ entries[entryId - 1]? = some .emptyEntry then h.fixEmptyEntries chain
      else return h
    else return h.setEntry a entryId .emptyEntry
  else (h.setEntry a entryId .emptyEntry).fixEmptyEntries chain

def freeContent (h : Heap) (ramnode : Ramnode) (removeContent : Bool) : Option (Datanodes Entries) :=
  if (fsNodeType ramnode.flags ≠ fsNodeTypeMemory ∧ fsNodeType ramnode.flags ≠ fsNodeTypeSemaphore) ∧ removeContent then
    h.datanode.removeDatanodeChain ramnode.data
  else some h.datanode

-- what `ramfs_remove_entry` does past the emptiness check
def removeFound (h : Heap) (parent : Addr) (removeNode : FsNode) (removeContent : Bool) : Option (FsErr × Heap) := do
  let chain ← (← h.ramnode parent).data
  match ← walkEntries h (findRound removeNode.nodeAddr) chainFuel chain () with
  | .inl _ => return (.notFound, h)
  | .inr (a, entryId) =>
      let s ← h.freeContent (← h.ramnode removeNode.nodeAddr) removeContent
      let h ← ((h.withDatanodes s).rfreeRamnode removeNode.nodeAddr).dropEntry chain a entryId
      return (.success, h)

def ramfsRemoveEntry (h : Heap) (parent : Addr) (removeNode : FsNode) (removeContent : Bool) :
    Option (FsErr × Heap) := do
  let checked := fsNodeType removeNode.flags = fsNodeTypeDirectory ∧ removeContent
  let passes ← if checked then h.passesEmptinessCheck removeNode else some true
  if passes then h.removeFound parent removeNode removeContent else return (.dirNotEmpty, h)

end Heap
end Kerosene.Ramfs
