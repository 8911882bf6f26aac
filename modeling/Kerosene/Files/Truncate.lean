import Kerosene.Fat32.FileRead
import Kerosene.Ramfs.Appenders
import Kerosene.Vfs.Lookup

/-!
# `file_open` and `node_reset`

`file_open` of file_op.c with what it reaches through a node of either filesystem. Following a null node
is a fault, `none`. Timestamps are left out.
-/

namespace Kerosene.Files
open Lib Ramfs
open Fat32 (Disk FatNode FatDescription)
open Vfs (isDirectory isSemaphore fileOpenTruncate fileOpenOnlydir)

inductive OpenErr
  | success
  | notDir
  | badCluster
deriving DecidableEq

/-- Where the content of a node is: `datanode_chain` of its ramfs node, or `start_cluster` on a volume. -/
inductive Place (φ : Type) where
  | ramfs (datanodeChain : Option Addr)
  | fat32 (fs : φ) (startCluster : Nat)

structure FsNode (φ : Type) where
  flags : BitVec 32
  size : Nat
  place : Place φ

/-- The nodes of the tree, the ramfs heap, and the mounted FAT32 volumes `φ`. -/
structure Storage (φ : Type) where
  node : Addr → Option (FsNode φ)
  datanode : Datanodes Block
  volume : φ → Disk

/-- `file_description_t`; `node` is null in a free slot, where the rest is what the last file left. -/
structure Slot where
  node : Option Addr
  mode : FileMode
  position : Nat
  currentDatanode : Option Addr
  lastDatanode : Option Addr
  currentCluster : Nat
  lastCluster : Nat

namespace Storage
variable {φ : Type} [DecidableEq φ]

def setSize (s : Storage φ) (a : Addr) (size : Nat) : Storage φ :=
  { s with node := Function.update s.node a ((s.node a).map fun node => { node with size := size }) }

def setVolume (s : Storage φ) (fs : φ) (disk : Disk) : Storage φ :=
  { s with volume := Function.update s.volume fs disk }

/-! ## `node_reset` -/

def ramfsNodeReset (s : Storage φ) (a : Addr) (flags : BitVec 32) (chain : Option Addr) :
    Option (OpenErr × Storage φ) := do
  if fsNodeType flags = fsNodeTypeMemory then return (.success, s)
  let head ← chain
  let first ← s.datanode head
  let datanode ← s.datanode.removeDatanodeChain first.next
  return (.success, { s with datanode := datanode.setNext head none }.setSize a 0)

def fat32NodeReset (s : Storage φ) (a : Addr) (fs : φ) (startCluster : Nat) : Option (OpenErr × Storage φ) := do
  let disk := s.volume fs
  let (err, fat) ← disk.fat.cutClusterChain startCluster
  let s := s.setVolume fs (disk.withFat fat)
  if err ≠ .success then return (.badCluster, s)
  return (.success, s.setSize a 0)

def nodeReset (s : Storage φ) (node : Option Addr) : Option (OpenErr × Storage φ) := do
  let a ← node
  let found ← s.node a
  match found.place with
  | .ramfs chain => s.ramfsNodeReset a found.flags chain
  | .fat32 fs startCluster => s.fat32NodeReset a fs startCluster

/-! ## `file_open` -/

def ramfsFileOpen (s : Storage φ) (file : Slot) (node : FsNode φ) (chain : Option Addr) (mode : FileMode) :
    Option Slot := do
  if fsNodeType node.flags = fsNodeTypeMemory ∨ isSemaphore node.flags then return file
  let opened ← File.ramfsFileOpen ⟨s.datanode, chain, node.size⟩
    ⟨file.mode, file.position, file.currentDatanode, file.lastDatanode⟩ mode
  return { file with currentDatanode := opened.currentDatanode, lastDatanode := opened.lastDatanode }

def fat32FileOpen (s : Storage φ) (file : Slot) (node : FsNode φ) (fs : φ) (startCluster : Nat) (mode : FileMode) :
    Option Slot := do
  let opened ← (s.volume fs).fat32FileOpen ⟨startCluster, fsNodeType node.flags = fsNodeTypeFile, node.size⟩
    ⟨file.mode, file.position, file.currentCluster, file.lastCluster⟩ mode
  return { file with currentCluster := opened.currentCluster, lastCluster := opened.lastCluster }

def fsFileOpen (s : Storage φ) (file : Slot) (node : FsNode φ) (mode : FileMode) : Option Slot :=
  match node.place with
  | .ramfs chain => s.ramfsFileOpen file node chain mode
  | .fat32 fs startCluster => s.fat32FileOpen file node fs startCluster mode

def fileOpen (s : Storage φ) (file : Slot) (node : Addr) (mode : FileMode) : Option (OpenErr × Storage φ × Slot) := do
  let found ← s.node node
  if mode.has fileOpenOnlydir ∧ ¬ isDirectory found.flags then return (.notDir, s, file)
  -- the node that the slot had, and not `node`
  let s ← if mode.has fileOpenWrite ∧ mode.has fileOpenTruncate then (s.nodeReset file.node).map Prod.snd else some s
  let found ← s.node node
  let file ← s.fsFileOpen { file with node := some node, mode := mode, position := 0 } found mode
  return (.success, s, file)

end Storage

/-! ## Files and what they hold -/

/-- A unit of allocation of either filesystem. -/
inductive Piece (φ : Type) where
  | datanode (a : Addr)
  | cluster (fs : φ) (c : Nat)

namespace Storage
variable {φ : Type}

def bytes (s : Storage φ) : Piece φ → List UInt8
  | .datanode a => ((s.datanode a).map fun node => node.data.toList).getD []
  | .cluster fs c => (s.volume fs).cluster c

def Free (s : Storage φ) : Piece φ → Prop
  | .datanode a => s.datanode a = none
  | .cluster fs c => (s.volume fs).fat.Free c

/-- The chain at a place, which ends. -/
def Holds (s : Storage φ) : Place φ → List (Piece φ) → Prop
  | .ramfs chain, pieces =>
      ∃ nodes, pieces = nodes.map .datanode ∧ nodes ≠ [] ∧ s.datanode.Chain chain nodes
  | .fat32 fs startCluster, pieces =>
      ∃ tail, pieces = (startCluster :: tail).map (.cluster fs) ∧ (s.volume fs).fat.Volume ∧
        Seg (s.volume fs).fat.link (some startCluster) (startCluster :: tail) none ∧
        ∀ c ∈ startCluster :: tail, (s.volume fs).fat.InUse c

/-- A regular file; no other node has a part of its chain. -/
structure Regular (s : Storage φ) (a : Addr) (node : FsNode φ) (pieces : List (Piece φ)) : Prop where
  here : s.node a = some node
  type : fsNodeType node.flags = fsNodeTypeFile
  holds : s.Holds node.place pieces
  apart : ∀ b other l, b ≠ a → s.node b = some other → s.Holds other.place l → l.Disjoint pieces

/-- The file at `a` is empty and has one datanode or cluster; the others have what they had. -/
structure Truncated (s s' : Storage φ) (a : Addr) (node : FsNode φ) (pieces : List (Piece φ)) : Prop where
  size : s'.node a = some { node with size := 0 }
  chain : s'.Holds node.place (pieces.take 1)
  freed : ∀ p ∈ pieces.drop 1, s'.Free p
  nodes : ∀ b, b ≠ a → s'.node b = s.node b
  others : ∀ b other l, b ≠ a → s.node b = some other → s.Holds other.place l →
    s'.Holds other.place l ∧ ∀ p ∈ l, s'.bytes p = s.bytes p

/-! ## What a change leaves alone -/

variable {s s' : Storage φ} {a : Addr} {node : FsNode φ} {pieces l : List (Piece φ)} {place : Place φ}

/-! ## The end of a chain of clusters -/

section
open Fat32

theorem lastLoop_ends {d : Disk} {fuel c : Nat} {tail : List Nat} (links : Seg d.fat.link (some c) (c :: tail) none)
    (enough : tail.length < fuel) : ∃ last, d.lastLoop fuel c = some last := by
  induction tail generalizing c fuel with
  | nil =>
      obtain ⟨fuel, rfl⟩ : ∃ n, fuel = n + 1 := ⟨fuel - 1, by omega⟩
      have ends : d.fat.link c = none := links.2
      rw [Fat.link] at ends
      refine ⟨c, ?_⟩
      rw [Disk.lastLoop, if_neg]
      rintro ⟨below, -⟩
      rw [if_pos below] at ends
      cases ends
  | cons b tail ih =>
      obtain ⟨fuel, rfl⟩ : ∃ n, fuel = n + 1 := ⟨fuel - 1, by omega⟩
      have next : d.fat.link c = some b := links.2.1
      have rest : Seg d.fat.link (some b) (b :: tail) none := by
        have := links.2
        rwa [next] at this
      obtain ⟨last, found⟩ := ih rest (by simp at enough; omega)
      simp only [Disk.lastLoop]
      split_ifs with more
      · rw [Fat.link, if_pos more.1] at next
        rw [Option.some.inj next]
        exact ⟨last, found⟩
      · exact ⟨c, rfl⟩

theorem fat32GetLastClusterOfChain_ends {d : Disk} {c : Nat} {tail : List Nat} (volume : d.fat.Volume)
    (links : Seg d.fat.link (some c) (c :: tail) none) (used : ∀ x ∈ c :: tail, d.fat.InUse x) :
    ∃ last, d.fat32GetLastClusterOfChain c = some last := by
  refine lastLoop_ends links ?_
  have bound := Fat.length_lt_of_inUse links.nodup used
  have fits := volume.fits
  simp only [List.length_cons, fatBadCluster] at bound fits
  omega

end

/-! ## `node_reset` on the file itself -/

theorem fsFileOpen_opens (type : fsNodeType node.flags = fsNodeTypeFile) (holds : s.Holds node.place l) (slot : Slot)
    (mode : FileMode) : ∃ file, s.fsFileOpen slot node mode = some file := by
  cases place : node.place with
  | ramfs chain =>
      rw [place] at holds
      obtain ⟨nodes, -, -, links⟩ := holds
      have notMemory : ¬ (fsNodeType node.flags = fsNodeTypeMemory ∨ isSemaphore node.flags) := by
        rw [isSemaphore, type]
        decide
      simp only [fsFileOpen, place, ramfsFileOpen, notMemory, if_false, File.ramfsFileOpen,
        File.ramfsGetLastDatanodeOfChain_chain links, Option.bind_eq_bind, Option.bind_some]
      split_ifs <;> exact ⟨_, rfl⟩
  | fat32 fs startCluster =>
      rw [place] at holds
      obtain ⟨tail, -, volume, links, used⟩ := holds
      obtain ⟨last, found⟩ := fat32GetLastClusterOfChain_ends volume links used
      simp only [fsFileOpen, place, fat32FileOpen, Disk.fat32FileOpen, found, Option.bind_eq_bind, Option.bind_some]
      split_ifs <;> exact ⟨_, rfl⟩

variable [DecidableEq φ]

/-! ## `file_open` -/

/-- A truncating open empties the file and no other; one without both flags changes nothing. -/
def OpensRight (s : Storage φ) (slot : Slot) (a : Addr) (node : FsNode φ) (mode : FileMode) (pieces : List (Piece φ)) :
    Prop :=
  if mode.has fileOpenWrite ∧ mode.has fileOpenTruncate then
    ∃ s' file, s.fileOpen slot a mode = some (.success, s', file) ∧ s.Truncated s' a node pieces
  else ∃ err file, s.fileOpen slot a mode = some (err, s, file)

theorem fileOpen_unchanged {mode : FileMode} (regular : s.Regular a node pieces) (slot : Slot)
    (plain : ¬ (mode.has fileOpenWrite ∧ mode.has fileOpenTruncate)) :
    ∃ err file, s.fileOpen slot a mode = some (err, s, file) := by
  simp only [fileOpen, Option.bind_eq_bind, regular.here, Option.bind_some]
  by_cases onlydir : mode.has fileOpenOnlydir ∧ ¬ isDirectory node.flags
  · rw [if_pos onlydir]
    exact ⟨_, _, rfl⟩
  · obtain ⟨file, opened⟩ := fsFileOpen_opens regular.type regular.holds
      { slot with node := some a, mode := mode, position := 0 } mode
    simp only [if_neg onlydir, if_neg plain, Option.bind_some, opened]
    exact ⟨_, _, rfl⟩

/-- In a free slot the reset follows the null node of the slot. -/
theorem fileOpen_right_iff {slot : Slot} (regular : s.Regular a node pieces) (free : slot.node = none)
    (mode : FileMode) :
    s.OpensRight slot a node mode pieces ↔ ¬ (mode.has fileOpenWrite ∧ mode.has fileOpenTruncate) := by
  rw [OpensRight]
  split_ifs with truncates
  · refine iff_of_false ?_ (not_not.mpr truncates)
    rintro ⟨s', file, opened, -⟩
    simp only [fileOpen, Option.bind_eq_bind, regular.here, Option.bind_some, if_pos truncates, free, nodeReset,
      Option.bind_none, Option.map_none] at opened
    split_ifs at opened with onlydir
    cases opened
  · exact iff_of_true (fileOpen_unchanged regular slot truncates) truncates

/-! ## A file of two clusters -/

def oneVolume : Storage Unit where
  node a := if a = 1 then some ⟨fsNodeTypeFile, 600, .fat32 () 2⟩ else none
  datanode _ := none
  volume _ := ⟨Fat32.Fat.oneFile, 1, fun _ _ => 7⟩

def freeSlot : Slot := ⟨none, 0, 0, none, none, 0, 0⟩

theorem oneVolume_regular :
    oneVolume.Regular 1 ⟨fsNodeTypeFile, 600, .fat32 () 2⟩ [.cluster () 2, .cluster () 3] where
  here := rfl
  type := by decide
  holds := ⟨[3], rfl, ⟨by decide, by decide⟩, ⟨rfl, by decide, show Fat32.Fat.oneFile.link 3 = none by decide⟩,
    fun c member => (Fat32.Fat.oneFile_partition.covers c).mp (by simpa using member)⟩
  apart b other l different here := by
    simp [oneVolume, different] at here

theorem fileOpen_right_iff_oneVolume :
    oneVolume.OpensRight freeSlot 1 ⟨fsNodeTypeFile, 600, .fat32 () 2⟩ fileOpenWrite [.cluster () 2, .cluster () 3] ↔
      ¬ (fileOpenWrite.has fileOpenWrite ∧ fileOpenWrite.has fileOpenTruncate) :=
  fileOpen_right_iff oneVolume_regular rfl fileOpenWrite

theorem truncating_open_faults :
    oneVolume.fileOpen freeSlot 1 (fileOpenWrite ||| fileOpenTruncate) = none ∧
    ¬ oneVolume.OpensRight freeSlot 1 ⟨fsNodeTypeFile, 600, .fat32 () 2⟩ (fileOpenWrite ||| fileOpenTruncate)
      [.cluster () 2, .cluster () 3] := by
  have faults : oneVolume.fileOpen freeSlot 1 (fileOpenWrite ||| fileOpenTruncate) = none := rfl
  refine ⟨faults, ?_⟩
  rw [OpensRight, if_pos (by decide), faults]
  rintro ⟨_, _, wrong, -⟩
  cases wrong

end Storage
end Kerosene.Files
