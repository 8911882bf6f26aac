import Kerosene.Files.Copies
import Kerosene.Ramfs.AllOrNothing
import Kerosene.Ramfs.Builds

/-!
# Copies to ramfs
-/

namespace Kerosene.Ramfs
open Lib Files
open Files.Target (piece)

/-- The directories, the new node, its file, and the descriptor that writes it. -/
structure RamfsCopy where
  heap : Heap
  node : FsNode
  file : File
  description : FileDescription

-- `ramfs_update_entry` of a file, timestamps apart
def Heap.updateSize (h : Heap) (node : FsNode) (size : Nat) : Option Heap :=
  (h.ramnode node.nodeAddr).map fun ramnode =>
    h.putRamnode node.nodeAddr { ramnode with flags := node.flags, size := .ofNat 32 size }

/-- The calls on a new file of the directory `parent`. `rmalloc` answers `created` for its first datanode, and a write is
given the answers to what it asks for. -/
def ramfsTarget (h : Heap) (s : Datanodes Block) (parent : Addr) (name : Name) (created : Datanodes.Grant Block)
    (entry : EntryGrants) (slot : FileDescription) : Target RamfsCopy (List (Datanodes.Grant Block)) FsErr FsErr where
  nodeCreate := do
    match ← File.ramfsNodeCreate s created with
    | none => return .error .notEnoughSpace
    | some file =>
        match ← h.loggedAddEntry parent name file.datanodeChain fsNodeTypeFile 0#32 entry with
        | (.error err, _) => return .error err
        | (.ok node, h, _) => return .ok ⟨h, node, file, slot⟩
  fileOpen s mode := (s.file.fileOpen s.description mode).map fun description => { s with description := description }
  fileWrite s buffer grants := (s.file.fileWrite s.description buffer grants).map fun r =>
    (if r.err = .success then .ok r.actual else .error r.err, { s with file := r.file, description := r.description })
  nodeSync s := (s.heap.updateSize s.node s.file.size).map fun h => { s with heap := h }

/-- The new file has an entry in the directory and holds `content`. -/
structure HoldsCopy (s : RamfsCopy) (chain : Addr) (content : List UInt8) : Prop where
  entry : ∃ ramnode nodes slots, s.heap.ramnode s.node.nodeAddr = some ramnode ∧ s.heap.Stores chain nodes slots ∧
    .ramnode s.node.nodeAddr ∈ slots ∧ ramnode.data = s.file.datanodeChain ∧ ramnode.size.toNat = content.length
  content : ∃ nodes, s.file.datanode.Chain s.file.datanodeChain nodes ∧ content <+: s.file.datanode.bytes nodes

variable {h : Heap} {s : Datanodes Block} {parent chain : Addr} {name : Name} {created : Datanodes.Grant Block} {entry : EntryGrants}
  {slot : FileDescription} {file : File} {content : List UInt8} {given : Nat → List (Datanodes.Grant Block)} {node : FsNode} {k : Nat}
  {c : RamfsCopy} {start w : Writer}

/-! ## The writer of a copy -/

namespace Writer

-- the writer that `universal_copy` opens
def opening (file : File) (slot : FileDescription) : Writer :=
  ⟨file, { slot with mode := fileOpenWrite ||| fileOpenCreate, position := 0, currentDatanode := file.datanodeChain }, [], 0⟩

def round (w : Writer) (content : List UInt8) (given : Nat → List (Datanodes.Grant Block)) : Nat → Option Writer
  | 0 => some w
  | k + 1 => (w.round content given k).bind fun w => w.step ⟨piece content k, given k⟩

/-- `rmalloc` answers as is allowed and has a block whenever a write asks for one. -/
def Supplied (w : Writer) (content : List UInt8) (given : Nat → List (Datanodes.Grant Block)) : Prop :=
  ∀ k w', 512 * k < content.length → w.round content given k = some w' →
    w'.file.datanode.Fresh (given k) ∧ Granted ⟨piece content k, given k⟩

theorem opening_opened (fresh : s.Fresh [created]) (made : File.ramfsNodeCreate s created = some (some file)) (slot : FileDescription) :
    Opened s created (opening file slot) :=
  ⟨fresh, made, ⟨slot, fileOpenWrite ||| fileOpenCreate, by decide, rfl⟩, rfl, rfl⟩

/-- Before round `k`, no write has failed. -/
structure AtRound (start : Writer) (content : List UInt8) (given : Nat → List (Datanodes.Grant Block)) (k : Nat) (w : Writer) : Prop where
  reached : start.round content given k = some w
  built : ∃ nodes j, w.Built nodes j
  failures : w.failures = 0
  log : w.log.flatten = content.take (512 * k)
  chain : w.file.datanodeChain = start.file.datanodeChain

theorem fileWrite_chain {f : File} {d : FileDescription} {buffer : List UInt8} {grants : List (Datanodes.Grant Block)}
    {r : File.WriteResult}
    (atEnd : f.WritesAtEnd d) {a : Addr} (here : File.pointer d = some a) (done : f.fileWrite d buffer grants = some r) :
    r.file.datanodeChain = f.datanodeChain := by
  rw [atEnd.fileWrite here] at done
  obtain ⟨o, -, rfl⟩ := Option.map_eq_some_iff.mp done
  rw [File.wrote_file]

theorem AtRound.next (at_ : AtRound start content given k w) (supplied : start.Supplied content given) (more : 512 * k < content.length) :
    ∃ r, w.file.fileWrite w.description (piece content k) (given k) = some r ∧ r.err = .success ∧
      r.actual = (piece content k).length ∧
      AtRound start content given (k + 1) ⟨r.file, r.description, w.log ++ [piece content k], w.failures⟩ := by
  obtain ⟨fresh, granted⟩ := supplied k w more at_.reached
  obtain ⟨nodes, j, built⟩ := at_.built
  have nonempty : (WriteCall.mk (piece content k) (given k)).buffer ≠ [] := List.ne_nil_of_length_pos (by rw [Target.length_piece]; omega)
  obtain ⟨r, wrote, success, actual⟩ := built.fileWrite nonempty fresh granted
  have step : w.step ⟨piece content k, given k⟩ = some ⟨r.file, r.description, w.log ++ [piece content k], w.failures⟩ := by
    rw [Writer.step, wrote, Option.bind_eq_bind, Option.bind_some, if_pos success]
    rfl
  obtain ⟨a, here, -⟩ := built.here
  refine ⟨r, wrote, success, actual, ⟨?_, built.step nonempty fresh step, at_.failures, ?_, ?_⟩⟩
  · rw [round, at_.reached, Option.bind_some, step]
  · rw [List.flatten_append, List.flatten_singleton, at_.log, Target.take_piece]
  · exact (fileWrite_chain built.atEnd here wrote).trans at_.chain

end Writer

/-! ## `universal_copy` to ramfs -/

/-- While the new file is written. -/
structure Copying (start : Writer) (content : List UInt8) (given : Nat → List (Datanodes.Grant Block)) (h : Heap)
    (node : FsNode) (k : Nat)
    (c : RamfsCopy) : Prop where
  writer : ∃ w, Writer.AtRound start content given k w ∧ c.file = w.file ∧ c.description = w.description
  heap : c.heap = h
  node : c.node = node

theorem ramfsTarget_takes (supplied : start.Supplied content given) (m : Nat) (h' : Heap) :
    (ramfsTarget h s parent name created entry slot).Takes given content m (Copying start content given h' node) where
  write := by
    rintro k ⟨heap, made, file, description⟩ - more ⟨⟨w, at_, rfl, rfl⟩, rfl, rfl⟩
    obtain ⟨r, wrote, success, actual, next⟩ := at_.next supplied more
    refine ⟨⟨heap, made, r.file, r.description⟩, ?_, ⟨⟨_, next, rfl, rfl⟩, rfl, rfl⟩⟩
    simp only [ramfsTarget, wrote, Option.map_some, success, if_true, actual]

theorem data_newFile (name : Name) (size : BitVec 32) (data : Option Addr) (grants : Grants) :
    (Heap.newRamnode name fsNodeTypeFile size data grants).data = data := by
  rw [Heap.newRamnode, if_pos (by decide)]

/-- The entry of a new file, before its size is written back. -/
structure NewEntry (h : Heap) (node : FsNode) (chain : Addr) (first : Option Addr) : Prop where
  ramnode : ∃ ramnode, h.ramnode node.nodeAddr = some ramnode ∧ ramnode.data = first
  listed : ∃ nodes slots, h.Stores chain nodes slots ∧ .ramnode node.nodeAddr ∈ slots

/-- A directory with no entry of the name, and the allocators grant what a new file in it takes. -/
structure IntoDir (h : Heap) (s : Datanodes Block) (parent chain : Addr) (name : Name) (created : Datanodes.Grant Block)
    (entry : EntryGrants) (file : File) : Prop where
  fresh : s.Fresh [created]
  made : File.ramfsNodeCreate s created = some (some file)
  unused : Heap.Grants.Fresh (entry.grants fsNodeTypeFile) h
  owns : h.chainOf parent = some chain
  directory : ∃ nodes slots, h.Directory chain nodes slots ∧ some name ∉ h.names slots ∧ Heap.Granted entry fsNodeTypeFile slots

section
variable {γ : Type} {src : FileSystem γ} {blockSize : Nat} {at_ : γ → Nat → Prop}

theorem IntoDir.creates (into : IntoDir h s parent chain name created entry file) (slot : FileDescription) :
    ∃ h' node, (ramfsTarget h s parent name created entry slot).nodeCreate = some (.ok ⟨h', node, file, slot⟩) ∧
      NewEntry h' node chain file.datanodeChain := by
  obtain ⟨nodes, slots, directory, absent, granted⟩ := into.directory
  obtain ⟨dir, here, owns⟩ := Recorded.chainOf_eq into.owns
  have made := into.made
  rcases Heap.loggedAddEntry_outcome directory here owns into.unused name file.datanodeChain 0#32 with
    ⟨refused, -⟩ | ⟨⟨-, -, -, refused⟩, -⟩ | ⟨-, a, h', nodes', calls, -, added, -, -, adds, stores⟩
  · rcases refused with listed | none | none
    · exact absurd listed absent
    · exact absurd none (Option.isSome_iff_ne_none.mp granted.ramnode)
    · exact absurd none (Option.isSome_iff_ne_none.mp granted.lock)
  · exact absurd granted refused
  · obtain ⟨left, right, -, inserted⟩ := Heap.entries_insertEntry slots a
    have self := congrFun adds.ramnode a
    rw [Function.update_self] at self
    refine ⟨h', Heap.toFsNode a (Heap.newRamnode (name.take (filenameLimit - 1)) fsNodeTypeFile 0#32 file.datanodeChain
      (entry.grants fsNodeTypeFile)), ?_, ⟨_, self, data_newFile _ _ _ (entry.grants fsNodeTypeFile)⟩, nodes', _, stores, ?_⟩
    · simp only [ramfsTarget, made, added, Option.bind_eq_bind, Option.bind_some]
      rfl
    · rw [← Heap.mem_entries, inserted]
      exact List.mem_append_right _ List.mem_cons_self

theorem IntoDir.universalCopy (into : IntoDir h s parent chain name created entry file) (reads : Reads src content blockSize at_)
    (supplied : (Writer.opening file slot).Supplied content given) (srcSlot : Description γ) :
    ∃ c, (ramfsTarget h s parent name created entry slot).universalCopy src srcSlot given = some (.success, some c) ∧
      HoldsCopy c chain content := by
  obtain ⟨h', node, create, new⟩ := into.creates slot
  have opened := Writer.opening_opened into.fresh into.made slot
  have first : Copying (Writer.opening file slot) content given h' node 0
      ⟨h', node, file, (Writer.opening file slot).description⟩ :=
    ⟨⟨_, ⟨rfl, opened.built, rfl, (List.take_zero ..).symm, rfl⟩, rfl, rfl⟩, rfl, rfl⟩
  have takes : (ramfsTarget h s parent name created entry slot).Takes given content content.length
      (Copying (Writer.opening file slot) content given h' node) := ramfsTarget_takes supplied content.length h'
  obtain ⟨k, c, whole, ⟨⟨w, at_, sameFile, -⟩, rfl, rfl⟩, done⟩ := takes.universalCopy reads (by omega) create rfl first srcSlot
  obtain ⟨nodes, j, built⟩ := at_.built
  have clean := built.clean at_.failures
  have log := at_.log
  rw [List.take_of_length_le whole] at log
  obtain ⟨ramnode, found, data⟩ := new.ramnode
  obtain ⟨nodes', slots', stores, listed⟩ := new.listed
  have small := reads.small
  refine ⟨{ c with heap := c.heap.putRamnode c.node.nodeAddr { ramnode with flags := c.node.flags, size := .ofNat 32 c.file.size } },
    ?_, ⟨{ ramnode with flags := c.node.flags, size := .ofNat 32 c.file.size }, nodes', slots', Function.update_self ..,
    stores.of_ramnodes rfl, listed, ?_, ?_⟩, nodes, ?_, ?_⟩
  · rw [done]
    simp only [ramfsTarget, Heap.updateSize, found, Option.map_some]
  · rw [sameFile]
    exact data.trans at_.chain.symm
  · show (BitVec.ofNat 32 c.file.size).toNat = _
    rw [sameFile, clean.size, log, BitVec.toNat_ofNat, Nat.mod_eq_of_lt small]
  · show c.file.datanode.Chain c.file.datanodeChain nodes
    rw [sameFile]
    exact built.chain
  · show content <+: c.file.datanode.bytes nodes
    rw [sameFile, ← log]
    exact clean.stored

end
end Kerosene.Ramfs
