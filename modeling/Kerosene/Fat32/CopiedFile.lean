import Kerosene.Fat32.NewFile
import Kerosene.Fat32.SmallWrites
import Kerosene.Files.Copies

/-!
# Copies to a FAT32 volume
-/

namespace Kerosene.Fat32
open Lib Libc Files
open Ramfs (Name filenameLimit fsNodeTypeMask fsNodeTypeFile FileMode fileOpenRead fileOpenWrite fileOpenAppend FileMode.has)

-- the node as `file_op.c` sees it
def FsNode.fatNode (node : FsNode) : FatNode :=
  ⟨node.startCluster.toNat, node.flags &&& fsNodeTypeMask = fsNodeTypeFile, node.size.toNat⟩

/-- The volume, the new node, and the descriptor that writes it. -/
structure FatCopy where
  disk : Disk
  node : FsNode
  file : FatDescription

/-- The calls on a new file of the directory at cluster `parent`; `opened` is the time of `file_open`, and a write
is given its own time. -/
def fatTarget (d : Disk) (fuel parent : Nat) (name : Name) (new : Scratch) (slot : FatDescription) (opened : Int) :
    Target FatCopy Int DirErr WriteErr where
  nodeCreate := (d.fat32NodeCreate fuel parent name 0#32 new).map fun (err, d, node) =>
    if err = .success then .ok ⟨d, node, slot⟩ else .error err
  fileOpen s mode := (s.disk.fileOpen s.node.fatNode s.file mode).map fun file =>
    { s with node := { s.node with accessedTimestamp := opened }, file := file }
  fileWrite s buffer time := (s.disk.fileWrite s.node.fatNode s.file buffer).map fun r =>
    if r.err = .success then
      (.ok (r.file.position - s.file.position),
        ⟨r.disk, { s.node with size := .ofNat r.node.size, modifiedTimestamp := time }, r.file⟩)
    else (.error r.err, ⟨r.disk, s.node, r.file⟩)
  nodeSync s := (s.disk.fat32UpdateEntry s.node).map fun d => { s with disk := d }

/-- The new file has an entry in the directory and holds `content`. -/
structure HoldsCopy (d : Disk) (node : FsNode) (parent : Nat) (content : List UInt8) : Prop where
  size : node.size.toNat = content.length
  file : ∃ dir chain rest, dir.head? = some parent ∧ d.Entered node dir ∧ Holds d node.fatNode chain (dir :: rest) ∧
    d.content chain node.size.toNat = content

/-- The copy succeeds, and so it is. -/
def CopiesTo {ε ε' : Type} (parent : Nat) (content : List UInt8) (r : Option (CopyErr ε ε' × Option FatCopy)) : Prop :=
  ∃ s, r = some (.success, some s) ∧ HoldsCopy s.disk s.node parent content

variable {d d' : Disk} {fuel parent total : Nat} {name : Name} {scratch : Scratch} {slot : FatDescription} {opened : Int}
  {mode : FileMode}
  {chain dir : List Nat} {rest : List (List Nat)} {node : FsNode} {s s' : FatCopy} {stored : List UInt8} {given : Nat → Int}

/-- While the new file is written: it holds `stored`, and what the directory has of it is as it was. -/
structure Filling (d : Disk) (node : FsNode) (rest : List (List Nat)) (total : Nat) (s : FatCopy) (stored : List UInt8) : Prop where
  appends : ∃ chain, Appends s.disk s.node.fatNode s.file chain rest total stored
  startCluster : s.node.startCluster = node.startCluster
  place : s.node.parentCluster = node.parentCluster ∧ s.node.parentClusterIndex = node.parentClusterIndex
  others : ∀ l ∈ rest, ∀ c ∈ l, s.disk.data c = d.data c

theorem fatTarget_takes {content : List UInt8} {m : Nat} (small : total ≤ 2 ^ 31) (inside : min (512 * m) content.length ≤ total) :
    (fatTarget d fuel parent name scratch slot opened).Takes given content m
      fun k s => Filling d' node rest total s (content.take (512 * k)) where
  write := by
    intro k s before more filling
    obtain ⟨chain, appends⟩ := filling.appends
    have length := appends.length
    have atEnd := appends.atEnd
    rw [List.length_take_of_le more.le] at length
    have piece := Target.length_piece content k
    obtain ⟨r, chain', done, success, appends', position, start, others⟩ := appends.step (Target.piece content k)
      (by rw [atEnd, length]; exact Nat.dvd_mul_right ..) (by omega) (by omega) (by omega) small
    rw [Target.take_piece] at appends'
    have size := appends'.size
    have isFile : r.node.isFile = s.node.fatNode.isFile := appends'.isFile.trans appends.isFile.symm
    have same : r.node = ⟨s.node.fatNode.startCluster, s.node.fatNode.isFile, r.node.size⟩ := by rw [← start, ← isFile]
    have node' : FsNode.fatNode { s.node with size := .ofNat r.node.size, modifiedTimestamp := given k } = r.node := by
      rw [FsNode.fatNode, UInt32.toNat_ofNat_of_lt' size]
      exact same.symm
    refine ⟨⟨r.disk, { s.node with size := .ofNat r.node.size, modifiedTimestamp := given k }, r.file⟩, ?_,
      ⟨⟨chain', ?_⟩, filling.startCluster, filling.place, fun l member c inside => ?_⟩⟩
    · simp only [fatTarget, done, Option.map_some, success, if_true]
      rw [position, Nat.add_sub_cancel_left]
    · rw [node']
      exact appends'
    · rw [others l member c inside, filling.others l member c inside]

theorem content_congr {size : Nat} (d' : Disk) (covers : size ≤ chain.length * d.clusterSize)
    (sectors : d'.sectorsPerCluster = d.sectorsPerCluster)
    (same : ∀ c ∈ chain, d'.data c = d.data c) : d'.content chain size = d.content chain size := by
  have sameSize : d'.clusterSize = d.clusterSize := by rw [Disk.clusterSize, sectors, Disk.clusterSize]
  refine List.map_congr_left fun i member => ?_
  have inside : i / d.clusterSize < chain.length := Nat.div_lt_of_lt_mul <| by
    have := List.mem_range.mp member
    rw [Nat.mul_comm]
    omega
  have here : chain.getD (i / d.clusterSize) 0 = chain[i / d.clusterSize] := by
    rw [List.getD_eq_getElem?_getD, List.getElem?_eq_getElem inside, Option.getD_some]
  rw [Disk.byteAt, Disk.byteAt, sameSize, here, same _ (List.getElem_mem inside)]

/-! ## From `node_create` to `node_sync` -/

theorem Filling.start (geometry : d.sectorsPerCluster ∣ 128) (new : d.NewFile d' chain dir name node)
    (isFile : node.flags &&& fsNodeTypeMask = fsNodeTypeFile) (partition : d'.fat.Partition ([node.startCluster.toNat] :: rest))
    (room : 1 + d.growth chain name + total / d.clusterSize ≤ d.fat.available.length) (writes : mode.has fileOpenWrite)
    (noAppend : mode.has fileOpenAppend = false) (slot : FatDescription) (opened : Int) :
    ∃ file, d'.fileOpen node.fatNode slot mode = some file ∧
      Filling d' node rest total ⟨d', { node with accessedTimestamp := opened }, file⟩ [] := by
  have sameSize : d'.clusterSize = d.clusterSize := by rw [Disk.clusterSize, new.sectors, Disk.clusterSize]
  have zero : node.size.toNat = 0 := by rw [new.size]; rfl
  have empty : node.fatNode.size = 0 := zero
  have open_ : d'.fileOpen node.fatNode slot mode = some ⟨mode, 0, node.startCluster.toNat, slot.lastCluster⟩ := by
    simp only [Disk.fileOpen, Disk.fat32FileOpen, writes, noAppend, Bool.true_or, if_true, Bool.false_eq_true, if_false]
    rfl
  refine ⟨_, open_, ⟨[node.startCluster.toNat], ⟨?_, new.volume, ⟨partition, rfl, ?_⟩, ?_, decide_eq_true isFile, writes, noAppend,
    Nat.zero_le _, ?_⟩, empty.symm, ?_, ?_, ?_⟩, rfl, ⟨rfl, rfl⟩, fun _ _ _ _ => rfl⟩
  · rw [new.sectors]
    exact geometry
  · show node.size.toNat ≤ _
    omega
  · exact node.size.toNat_lt
  · show [node.startCluster.toNat][(0 - 1) / d'.clusterSize]? = _
    rw [Nat.zero_sub, Nat.zero_div]
    rfl
  · show d'.content _ node.size.toNat = []
    rw [zero]
    rfl
  · exact Nat.le_add_left ..
  · rw [List.length_singleton, sameSize, new.available, List.length_drop]
    omega

theorem Filling.sync (filling : Filling d' node (dir :: rest) total s stored) (new : d.NewFile d' chain dir name node)
    (head : chain.head? = some parent) (fuel : Nat) (scratch : Scratch) (slot : FatDescription) (opened : Int) :
    ∃ s', (fatTarget d fuel parent name scratch slot opened).nodeSync s = some s' ∧
      ∀ content, HoldsCopy s'.disk s'.node parent content ↔ d.EntryFits chain name ∧ content = stored := by
  obtain ⟨all, appends⟩ := filling.appends
  obtain ⟨bytes, done, start, size⟩ := s.disk.fat32UpdateEntry_spec s.node
  have partition := appends.holds.partition
  have synced : (fatTarget d fuel parent name scratch slot opened).nodeSync s =
      some ⟨s.disk.setData s.node.parentCluster bytes, s.node, s.file⟩ := congrArg (Option.map _) done
  have dirHead : dir.head? = some parent := new.head.trans head
  have kept : s.node.parentCluster ∈ dir →
      (s.disk.setData s.node.parentCluster bytes).content all s.node.size.toNat = stored := fun place => by
    have apart : s.node.parentCluster ∉ all := fun member =>
      (List.nodup_append'.mp partition.nodup).2.2 member (List.mem_append_left _ place)
    exact (content_congr (s.disk.setData s.node.parentCluster bytes) appends.holds.covers rfl fun c member =>
      data_setData_of_ne (by rintro rfl; exact apart member) ..).trans appends.holds_
  refine ⟨_, synced, fun content => ⟨fun holds => ?_, ?_⟩⟩
  · obtain ⟨dir', all', rest', head', entered, copy, same⟩ := holds.file
    have seg := partition.links dir (by simp)
    have seg' : Lib.Seg s.disk.fat.link dir'.head? dir' none := copy.partition.links dir' (by simp)
    have allSeg := partition.links all List.mem_cons_self
    have allSeg' : Lib.Seg s.disk.fat.link all'.head? all' none := copy.partition.links all' List.mem_cons_self
    rw [copy.start] at allSeg'
    rw [appends.holds.start] at allSeg
    rw [head', ← dirHead] at seg'
    obtain rfl := seg'.unique seg
    obtain rfl := allSeg'.unique allSeg
    have place := entered.place
    refine ⟨?_, same.symm.trans (kept place)⟩
    rw [← new.place, ← filling.place.1]
    exact place
  · rintro ⟨fits, rfl⟩
    have place : s.node.parentCluster ∈ dir := by
      rw [filling.place.1]
      exact new.place.mpr fits
    refine ⟨appends.length, dir, all, rest, dirHead, ⟨place, ?_, size⟩, ⟨partition, appends.holds.start, appends.holds.covers⟩,
      kept place⟩
    have entry := new.startCluster
    rw [start, Disk.entryOf, filling.others dir List.mem_cons_self _ place, filling.startCluster, ← entry, Disk.entryOf,
      filling.place.1, filling.place.2]

/-- A directory of a volume, and a name that it has no entry of. -/
structure IntoDir (d : Disk) (chain : List Nat) (rest : List (List Nat)) (fuel : Nat) (name : Name) (scratch : Scratch) : Prop where
  geometry : d.sectorsPerCluster ∣ 128
  volume : d.fat.Volume
  partition : d.fat.Partition (chain :: rest)
  nonempty : chain ≠ []
  enough : chain.length < fuel
  short : name.length < filenameLimit
  absent : ¬ d.Finds chain name scratch.entryName

namespace IntoDir
variable (into : IntoDir d chain rest fuel name scratch)
include into

theorem sized : d.Sized :=
  ⟨Nat.pos_of_dvd_of_pos into.geometry (by decide), Nat.lt_of_le_of_lt (Nat.le_of_dvd (by decide) into.geometry) (by decide)⟩

theorem head : chain.head? = some (chain.getD 0 0) := by
  obtain ⟨c₀, cs, rfl⟩ := List.exists_cons_of_ne_nil into.nonempty
  rfl

theorem starts (total : Nat) (mode : FileMode) (room : 1 + d.growth chain name + total / d.clusterSize ≤ d.fat.available.length)
    (writes : mode.has fileOpenWrite)
    (noAppend : mode.has fileOpenAppend = false) (slot : FatDescription) (opened : Int) :
    ∃ s s₁ d' node dir rest', (fatTarget d fuel (chain.getD 0 0) name scratch slot opened).nodeCreate = some (.ok s) ∧
      (fatTarget d fuel (chain.getD 0 0) name scratch slot opened).fileOpen s mode = some s₁ ∧
      d.NewFile d' chain dir name node ∧ Filling d' node (dir :: rest') total s₁ [] := by
  obtain ⟨d', node, dir, created, sameFlags, new⟩ := Disk.nodeCreate_newFile 0#32 into.sized into.volume into.partition
    into.nonempty into.enough into.short into.absent (le_trans (Nat.le_add_right ..) room)
  obtain ⟨lost, partition⟩ := new.partition rest into.partition
  have isFile : node.flags &&& fsNodeTypeMask = fsNodeTypeFile := by
    rw [sameFlags]
    decide
  obtain ⟨file, open_, filling⟩ := Filling.start into.geometry new isFile partition room writes noAppend slot opened
  refine ⟨⟨d', node, slot⟩, _, d', node, dir, lost ++ rest, ?_, ?_, new, filling⟩
  · simp only [fatTarget, created, Option.map_some, if_true]
  · simp only [fatTarget, open_, Option.map_some]

end IntoDir

end Kerosene.Fat32
