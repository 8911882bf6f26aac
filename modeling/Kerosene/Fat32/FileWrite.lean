import Kerosene.Fat32.ChainRun
import Kerosene.Lib.Splice
import Kerosene.Ramfs.File

/-!
# `file_write` on a FAT32 file

A disk is the FAT and the bytes of each cluster. `ata_pio_LBA28_access` moves whole clusters; which
sectors those are is left out, as different clusters have different ones.
-/

namespace Kerosene.Fat32
open Lib Ramfs

inductive WriteErr
  | success
  | badCluster
  | notEnoughSpace
  | failed
  | notFile
deriving DecidableEq

structure Disk where
  fat : Fat
  sectorsPerCluster : Nat
  data : Nat → Nat → UInt8

-- `memcpy(bytes + offset, buffer, |buffer|)`
def patch (bytes : Nat → UInt8) (offset : Nat) (buffer : List UInt8) : Nat → UInt8 :=
  fun i => if offset ≤ i ∧ i < offset + buffer.length then buffer.getD (i - offset) 0 else bytes i

structure WriteResult where
  err : WriteErr
  disk : Disk
  current : Nat
  actualWriteSize : Nat

namespace Disk

def clusterSize (d : Disk) : Nat := d.sectorsPerCluster * 512

def setData (d : Disk) (cluster : Nat) (bytes : Nat → UInt8) : Disk :=
  { d with data := Function.update d.data cluster bytes }

def withFat (d : Disk) (fat : Fat) : Disk := { d with fat := fat }

-- The first loop of `write_file`. Each round takes at least a cluster off the offset, so that
-- `fuel` rounds do for an offset of `fuel` clusters. `none` when an allocation leaves the table.
def advance : (fuel : Nat) → Disk → (current offset : Nat) → Option (WriteErr × Disk × Nat × Nat)
  | 0, d, current, offset => some (.success, d, current, offset)
  | fuel + 1, d, current, offset =>
      if offset ≥ d.clusterSize then
        let val := d.fat.getFatEntry current
        if val ≥ fatEoc then
          match d.fat.expandClusterChain current (offset / d.clusterSize) with
          | none => none
          | some (newCluster, fat) =>
              if newCluster = 0 then some (.notEnoughSpace, d.withFat fat, current, offset)
              else advance fuel (d.withFat fat) newCluster (offset - d.clusterSize * (offset / d.clusterSize))
        else if val = fatBadCluster then some (.badCluster, d, current, offset)
        else advance fuel d val (offset - d.clusterSize)
      else some (.success, d, current, offset)

-- One whole cluster from the front of the buffer.
def putCluster (d : Disk) (current : Nat) (buffer : List UInt8) : Disk :=
  d.setData current (patch (d.data current) 0 (buffer.take d.clusterSize))

-- The last loop of `write_file`. `whole` is `size / cluster_size`, so that `size >= cluster_size` is
-- the second case.
def writeClusters (keep : Bool) : (whole : Nat) → Disk → (current : Nat) → List UInt8 → (actual : Nat) → WriteResult
  | 0, d, current, buffer, actual =>
      let extBuffer := if keep then d.data current else fun _ => 0
      ⟨.success, d.setData current (patch extBuffer 0 buffer), current, actual + buffer.length⟩
  | whole + 1, d, current, buffer, actual =>
      let d' := d.putCluster current buffer
      let rest := buffer.drop d.clusterSize
      let actual := actual + d.clusterSize
      if rest.length = 0 then ⟨.success, d', current, actual⟩
      else
        let val := d.fat.getFatEntry current
        if val ≥ fatEoc then ⟨.success, d', current, actual⟩
        else if val = fatBadCluster then ⟨.badCluster, d', current, actual⟩
        else writeClusters keep whole d' val rest actual

-- From `estimated_clusters` on.
def writeRest (d : Disk) (keep : Bool) (current : Nat) (buffer : List UInt8) (actual : Nat) : Option WriteResult :=
  let estimatedClusters := buffer.length / d.clusterSize
  if estimatedClusters > 0 then
    match d.fat.expandClusterChain current estimatedClusters with
    | none => none
    | some (newCluster, fat) =>
        if newCluster = 0 then some ⟨.notEnoughSpace, d.withFat fat, current, actual⟩
        else some (writeClusters keep estimatedClusters (d.withFat fat) current buffer actual)
  else some (writeClusters keep estimatedClusters d current buffer actual)

def writeFile (d : Disk) (startCluster : Nat) (buffer : List UInt8) (clusterOffset fileSize nextPosition : Nat) :
    Option WriteResult :=
  match d.advance (clusterOffset / d.clusterSize) startCluster clusterOffset with
  | none => none
  | some (err, d, current, offset) =>
      if err ≠ .success then some ⟨err, d, current, 0⟩
      else if offset > 0 then
        let remainSize := d.clusterSize - offset
        let d := d.setData current (patch (d.data current) offset (buffer.take remainSize))
        if buffer.length ≤ remainSize then some ⟨.success, d, current, buffer.length⟩
        else d.writeRest (nextPosition ≤ fileSize) current (buffer.drop remainSize) remainSize
      else d.writeRest (nextPosition ≤ fileSize) current buffer 0

end Disk

-- `size` is 32 bits wide, `position` 64.
structure FatNode where
  startCluster : Nat
  isFile : Bool
  size : Nat

structure FatDescription where
  mode : FileMode
  position : Nat
  currentCluster : Nat
  lastCluster : Nat

-- The conversions to `int` and to `unsigned`.
def toInt (n : Nat) : Int :=
  if n % 2 ^ 32 < 2 ^ 31 then (n % 2 ^ 32 : Nat) else (n % 2 ^ 32 : Nat) - 2 ^ 32
def toUnsigned (i : Int) : Nat := (i % 2 ^ 32).toNat

def writeOffset (position : Int) (clusterSize : Nat) : Int :=
  let offset := position.tmod clusterSize
  if offset = 0 ∧ position > 0 then clusterSize else offset

structure FileResult where
  err : WriteErr
  disk : Disk
  node : FatNode
  file : FatDescription

namespace Disk

def fat32FileWrite (d : Disk) (node : FatNode) (file : FatDescription) (data : List UInt8) :
    Option (WriteResult × FatDescription) :=
  if file.mode.has fileOpenAppend then
    let position := toInt node.size
    (d.writeFile file.lastCluster data (toUnsigned (writeOffset position d.clusterSize)) node.size
      (toUnsigned (position + data.length))).map fun r => (r, { file with lastCluster := r.current })
  else
    let position := toInt file.position
    (d.writeFile file.currentCluster data (toUnsigned (writeOffset position d.clusterSize)) node.size
      (toUnsigned (position + data.length))).map fun r => (r, { file with currentCluster := r.current })

-- The nodes of a FAT32 volume are files and directories, so the branch for pipes is not there.
def fileWrite (d : Disk) (node : FatNode) (file : FatDescription) (buffer : List UInt8) : Option FileResult :=
  if ¬ file.mode.has fileOpenWrite then some ⟨.failed, d, node, file⟩
  else if ¬ node.isFile then some ⟨.notFile, d, node, file⟩
  else (d.fat32FileWrite node file buffer).map fun (r, file) =>
    if r.err ≠ .success then ⟨r.err, r.disk, node, file⟩
    else if file.mode.has fileOpenAppend then
      let size := (node.size + r.actualWriteSize) % 2 ^ 32
      ⟨.success, r.disk, { node with size := size }, { file with position := size }⟩
    else
      let position := file.position + r.actualWriteSize
      ⟨.success, r.disk, { node with size := if position > node.size then position % 2 ^ 32 else node.size },
        { file with position := position }⟩

/-! ## What a file holds -/

def byteAt (d : Disk) (chain : List Nat) (i : Nat) : UInt8 :=
  d.data (chain.getD (i / d.clusterSize) 0) (i % d.clusterSize)

def content (d : Disk) (chain : List Nat) (size : Nat) : List UInt8 := (List.range size).map (d.byteAt chain)

end Disk

-- The file on `chain` holds `size` bytes, the other files and directories are on `rest`.
structure Holds (d : Disk) (node : FatNode) (chain : List Nat) (rest : List (List Nat)) : Prop where
  partition : d.fat.Partition (chain :: rest)
  start : chain.head? = some node.startCluster
  covers : node.size ≤ chain.length * d.clusterSize

/-- The file has `buffer` from `position` on and is otherwise as it was, and so are the others. -/
structure Written (d : Disk) (node : FatNode) (chain : List Nat) (rest : List (List Nat)) (position : Nat)
    (buffer : List UInt8) (r : FileResult) : Prop where
  success : r.err = .success
  file : ∃ chain', Holds r.disk r.node chain' rest ∧ r.node.startCluster = node.startCluster ∧
    r.disk.content chain' r.node.size = splice (d.content chain node.size) position buffer
  others : ∀ l ∈ rest, ∀ c ∈ l, r.disk.data c = d.data c

end Kerosene.Fat32
