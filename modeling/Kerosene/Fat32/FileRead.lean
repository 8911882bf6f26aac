import Kerosene.Fat32.WriteSteps
import Kerosene.Files.Reads

/-!
# `file_read` and `file_seek` on a FAT32 file

`fat32_file_read`, `fat32_file_seek_absolute` and `read_file` of fat32.c.
-/

namespace Kerosene.Fat32
open Lib Ramfs
open Files (ReadErr Answer FileSystem Description Reads Seeks blockOf pieces)

namespace Disk

-- the buffer that `ata_pio_LBA28_access` fills
def cluster (d : Disk) (c : Nat) : List UInt8 := (List.range d.clusterSize).map (d.data c)

theorem cluster_length (d : Disk) (c : Nat) : (d.cluster c).length = d.clusterSize := by
  rw [cluster, List.length_map, List.length_range]

/-! ## `read_file` -/

-- The first loop, with a round for each cluster of the offset.
def skip (d : Disk) : (fuel : Nat) → (current offset : Nat) → ReadErr × Nat × Nat
  | 0, current, offset => (.success, current, offset)
  | fuel + 1, current, offset =>
      if offset ≥ d.clusterSize then
        let val := d.fat.getFatEntry current
        if val = fatBadCluster then (.badCluster, current, offset)
        else if val ≥ fatEoc then (.eof, current, offset)
        else skip d fuel val (offset - d.clusterSize)
      else (.success, current, offset)

-- The last loop. `whole` is `size / cluster_size`, so that `size >= cluster_size` is the second case, where
-- the sectors go straight to the buffer.
def readClusters (d : Disk) : (whole : Nat) → (current size : Nat) → (stored : List UInt8) → Answer Nat
  | 0, current, size, stored => ⟨.success, stored ++ (d.cluster current).take size, current⟩
  | whole + 1, current, size, stored =>
      let stored := stored ++ d.cluster current
      if size - d.clusterSize = 0 then ⟨.success, stored, current⟩
      else
        let val := d.fat.getFatEntry current
        if val ≥ fatEoc then ⟨.eof, stored, current⟩
        else if val = fatBadCluster then ⟨.badCluster, stored, current⟩
        else readClusters d whole val (size - d.clusterSize) stored

def readFile (d : Disk) (startCluster size clusterOffset : Nat) : Answer Nat :=
  let (err, current, offset) := d.skip (clusterOffset / d.clusterSize) startCluster clusterOffset
  if err ≠ .success then ⟨err, [], current⟩
  else if offset > 0 then
    let remainSize := d.clusterSize - offset
    if remainSize ≥ size then ⟨.success, ((d.cluster current).drop offset).take size, current⟩
    else
      let stored := ((d.cluster current).drop offset).take remainSize
      let val := d.fat.getFatEntry current
      if val ≥ fatEoc then ⟨.eof, stored, current⟩
      else if val = fatBadCluster then ⟨.badCluster, stored, current⟩
      else d.readClusters ((size - remainSize) / d.clusterSize) val (size - remainSize) stored
  else d.readClusters (size / d.clusterSize) current size []

-- the remainder of an `int64_t`, so that it fits in the `int`
def readOffset (position clusterSize : Nat) : Nat :=
  if position % clusterSize = 0 ∧ position > 0 then clusterSize else position % clusterSize

def fat32FileRead (d : Disk) (position current size : Nat) : Answer Nat :=
  d.readFile current size (readOffset position d.clusterSize)

/-! ## `fat32_file_seek_absolute` -/

-- `position & ~((uint64_t)cluster_size - 1)`, as a `size_t`
def alignDown (position clusterSize : Nat) : Nat := (position &&& (2 ^ 64 - clusterSize)) % 2 ^ 32

-- `current_size` when the loop ends, and the cluster
def seekLoop (d : Disk) (seekPosition : Nat) : (fuel : Nat) → (current currentSize : Nat) → Option (ReadErr × Nat × Nat)
  | 0, _, _ => none
  | fuel + 1, current, currentSize =>
      let grown := (currentSize + d.clusterSize) % 2 ^ 32
      if grown ≥ seekPosition then some (.success, currentSize, current)
      else
        let val := d.fat.getFatEntry current
        if val = fatBadCluster then some (.badCluster, grown, current)
        -- not taken back here
        else if val ≥ fatEoc then some (.success, grown, current)
        else seekLoop d seekPosition fuel val grown

def fat32FileSeekAbsolute (d : Disk) (node : FatNode) (position current : Nat) (seekPosition : Int) :
    Option (ReadErr × Nat × Nat) := do
  let seekPosition := if seekPosition < 0 then 0 else seekPosition.toNat
  if position = seekPosition then return (.success, position, current)
  let (start, startSize) := if position ≤ seekPosition then (current, alignDown position d.clusterSize)
    else (node.startCluster, 0)
  let (err, currentSize, found) ← d.seekLoop seekPosition (2 ^ 32) start startSize
  if err ≠ .success then return (err, position, current)
  return (.success, if (currentSize + d.clusterSize) % 2 ^ 32 < seekPosition then node.size else seekPosition, found)

def fileSystem (d : Disk) (node : FatNode) : FileSystem Nat where
  chain := node.startCluster
  size := node.size
  fsFileSeekAbsolute := d.fat32FileSeekAbsolute node
  fsFileRead position current size := some (d.fat32FileRead position current size)

/-! ## `fat32_file_open` -/

def lastLoop (d : Disk) : (fuel : Nat) → (current : Nat) → Option Nat
  | 0, _ => none
  | fuel + 1, current =>
      let val := d.fat.getFatEntry current
      if val < fatEoc ∧ val ≠ fatBadCluster then lastLoop d fuel val else some current

def fat32GetLastClusterOfChain (d : Disk) (startCluster : Nat) : Option Nat := d.lastLoop (2 ^ 32) startCluster

def fat32FileOpen (d : Disk) (node : FatNode) (file : FatDescription) (mode : FileMode) : Option FatDescription := do
  let current := if mode.has fileOpenWrite || mode.has fileOpenRead then node.startCluster else file.currentCluster
  if mode.has fileOpenAppend then
    let last ← d.fat32GetLastClusterOfChain node.startCluster
    return { file with currentCluster := current, lastCluster := last }
  return { file with currentCluster := current }

/-- `file_open` in a slot of the descriptor table, for modes without `FILE_OPEN_TRUNCATE` and
`FILE_OPEN_ONLYDIR`. -/
def fileOpen (d : Disk) (node : FatNode) (slot : FatDescription) (mode : FileMode) : Option FatDescription :=
  d.fat32FileOpen node { slot with mode := mode, position := 0 } mode

end Disk

/-! ## Files on their chains -/

variable {d : Disk} {node : FatNode} {chain : List Nat} {stored : List UInt8} {current j p q size whole fuel : Nat}

/-- The clusters of the file, in order. -/
structure OnChain (d : Disk) (node : FatNode) (chain : List Nat) : Prop where
  links : Seg d.fat.link chain.head? chain none
  notBad : ∀ c ∈ chain, d.fat.getFatEntry c ≠ fatBadCluster
  start : chain ≠ [] → chain.head? = some node.startCluster
  covers : node.size ≤ chain.length * d.clusterSize

theorem blocks_cluster (d : Disk) (chain : List Nat) : Blocks d.clusterSize (chain.map d.cluster) := by
  intro b member
  obtain ⟨c, -, rfl⟩ := List.mem_map.mp member
  exact d.cluster_length c

def bytesOf (d : Disk) (chain : List Nat) : List UInt8 := (chain.map d.cluster).flatten

theorem content_eq (covers : size ≤ chain.length * d.clusterSize) : d.content chain size = (bytesOf d chain).take size := by
  refine List.ext_getElem? fun i => ?_
  rw [Disk.content, List.getElem?_map, List.getElem?_take]
  by_cases inside : i < size
  · have sized : 0 < d.clusterSize := by
      rcases Nat.eq_zero_or_pos d.clusterSize with zero | positive
      · rw [zero] at covers
        omega
      · exact positive
    have bound : i / d.clusterSize < chain.length := (Nat.div_lt_iff_lt_mul sized).mpr (by omega)
    have place : i / d.clusterSize * d.clusterSize + i % d.clusterSize = i := Nat.div_add_mod' i d.clusterSize
    have found := (blocks_cluster d chain).getElem? (j := i / d.clusterSize) (Nat.mod_lt i sized)
    rw [place, List.getElem?_map, List.getElem?_eq_getElem bound] at found
    rw [List.getElem?_range inside, if_pos inside, bytesOf, found]
    simp [Disk.cluster, Disk.byteAt, List.getElem?_range (Nat.mod_lt i sized), List.getElem?_eq_getElem bound]
  · rw [if_neg inside, List.getElem?_eq_none (by rw [List.length_range]; omega)]
    rfl

theorem OnChain.next (on : OnChain d node chain) (here : chain[j]? = some current) (more : j + 1 < chain.length) :
    ∃ val, d.fat.getFatEntry current = val ∧ chain[j + 1]? = some val ∧ ¬ val ≥ fatEoc ∧ val ≠ fatBadCluster := by
  have link := on.links.next_getElem? here
  rw [List.getElem?_eq_getElem more, Fat.link] at link
  split_ifs at link with below
  refine ⟨_, rfl, ?_, not_le.mpr below, on.notBad current (List.mem_of_getElem? here)⟩
  rw [List.getElem?_eq_getElem more, ← link]

theorem row (d : Disk) (here : chain[j]? = some current) : (chain.map d.cluster)[j]? = some (d.cluster current) := by
  rw [List.getElem?_map, here, Option.map_some]

theorem OnChain.readClusters (on : OnChain d node chain) (sized : 0 < d.clusterSize) (here : chain[j]? = some current)
    (count : whole = size / d.clusterSize) (positive : 0 < size)
    (covers : j * d.clusterSize + size ≤ chain.length * d.clusterSize) :
    ∃ c, d.readClusters whole current size stored =
        ⟨.success, stored ++ ((bytesOf d chain).drop (j * d.clusterSize)).take size, c⟩ ∧
      chain[j + (size - 1) / d.clusterSize]? = some c := by
  have slice := fun j current (here : chain[j]? = some current) size =>
    (blocks_cluster d chain).slice (row d here) (Nat.zero_le d.clusterSize) size
  simp only [Nat.add_zero, List.drop_zero, Nat.sub_zero] at slice
  induction whole generalizing j current size stored with
  | zero =>
      have small : size < d.clusterSize := (Nat.div_eq_zero_iff_lt sized).mp count.symm
      have index : (size - 1) / d.clusterSize = 0 := Nat.div_eq_of_lt (by omega)
      have ended : size - d.clusterSize = 0 := by omega
      rw [Disk.readClusters, bytesOf, slice j current here, ended, List.take_zero, List.append_nil, index]
      exact ⟨current, rfl, here⟩
  | succ whole ih =>
      have large : d.clusterSize ≤ size := by
        by_contra less
        rw [Nat.div_eq_of_lt (by omega)] at count
        omega
      have full : (d.cluster current).take size = d.cluster current := by
        refine List.take_of_length_le ?_
        rw [Disk.cluster_length]
        exact large
      rw [Disk.readClusters, bytesOf, slice j current here, full]
      dsimp only
      by_cases last : size - d.clusterSize = 0
      · have index : (size - 1) / d.clusterSize = 0 := Nat.div_eq_of_lt (by omega)
        rw [if_pos last, last, List.take_zero, List.append_nil, index]
        exact ⟨current, rfl, here⟩
      · have more : j + 1 < chain.length := by
          refine Nat.lt_of_mul_lt_mul_right (a := d.clusterSize) ?_
          rw [Nat.succ_mul]
          omega
        obtain ⟨val, entry, there, below, good⟩ := on.next here more
        have fits : (j + 1) * d.clusterSize + (size - d.clusterSize) ≤ chain.length * d.clusterSize := by
          rw [Nat.succ_mul]
          omega
        have left : whole = (size - d.clusterSize) / d.clusterSize := by
          rw [Nat.div_eq_sub_div sized large] at count
          omega
        obtain ⟨c, done, ends⟩ := ih there left (by omega) fits
        have index : j + (size - 1) / d.clusterSize = j + 1 + (size - d.clusterSize - 1) / d.clusterSize := by
          have less : d.clusterSize ≤ size - 1 := by omega
          have swap : size - 1 - d.clusterSize = size - d.clusterSize - 1 := Nat.sub_right_comm ..
          rw [Nat.div_eq_sub_div sized less, swap]
          omega
        refine ⟨c, ?_, by rw [index]; exact ends⟩
        rw [if_neg last, entry, if_neg below, if_neg good, done, bytesOf, List.append_assoc]

theorem blockOf_inside {clusterSize : Nat} (sized : 0 < clusterSize) (inside : p = 0 ∨ p % clusterSize ≠ 0) :
    blockOf clusterSize p = p / clusterSize := by
  have whole := Nat.div_add_mod' p clusterSize
  have less := Nat.mod_lt p sized
  refine Nat.div_eq_of_lt_le ?_ (by rw [Nat.succ_mul]; omega)
  rcases inside with rfl | inside
  · simp
  · omega

theorem readOffset_spec {clusterSize : Nat} (sized : 0 < clusterSize) (p : Nat) :
    p = blockOf clusterSize p * clusterSize + Disk.readOffset p clusterSize ∧ Disk.readOffset p clusterSize ≤ clusterSize := by
  have whole := Nat.div_add_mod' p clusterSize
  have less := Nat.mod_lt p sized
  rw [blockOf, Disk.readOffset]
  by_cases edge : p % clusterSize = 0 ∧ p > 0
  · obtain ⟨k, here⟩ : ∃ k, p / clusterSize = k + 1 := by
      refine Nat.exists_eq_succ_of_ne_zero fun zero => ?_
      rw [zero] at whole
      omega
    rw [here, Nat.succ_mul] at whole
    have before : (p - 1) / clusterSize = k := Nat.div_eq_of_lt_le (by omega) (by rw [Nat.succ_mul]; omega)
    rw [if_pos edge, before]
    omega
  · have same := blockOf_inside sized (p := p) (by omega)
    rw [blockOf] at same
    rw [if_neg edge, same]
    omega

theorem OnChain.readFile (on : OnChain d node chain) (sized : 0 < d.clusterSize)
    (here : chain[blockOf d.clusterSize p]? = some current) (positive : 0 < size)
    (covers : p + size ≤ chain.length * d.clusterSize) :
    ∃ c, d.fat32FileRead p current size = ⟨.success, ((bytesOf d chain).drop p).take size, c⟩ ∧
      chain[blockOf d.clusterSize (p + size)]? = some c := by
  obtain ⟨position, small⟩ := readOffset_spec sized p
  have ends : blockOf d.clusterSize (p + size) = (p + size - 1) / d.clusterSize := rfl
  rw [Disk.fat32FileRead, ends]
  generalize blockOf d.clusterSize p = j at *
  generalize Disk.readOffset p d.clusterSize = offset at *
  have slice := (blocks_cluster d chain).slice (row d here) small size
  rw [← position] at slice
  have index {n : Nat} (k : Nat) (split : p + size = k * d.clusterSize + n) (some_ : 0 < n) :
      (p + size - 1) / d.clusterSize = k + (n - 1) / d.clusterSize := by
    have shift : p + size - 1 = n - 1 + k * d.clusterSize := by omega
    rw [shift, Nat.add_mul_div_right _ _ sized, Nat.add_comm]
  have follow : d.clusterSize - offset < size → ∃ val, d.fat.getFatEntry current = val ∧ chain[j + 1]? = some val ∧
      ¬ val ≥ fatEoc ∧ val ≠ fatBadCluster := fun beyond => on.next here <| by
    refine Nat.lt_of_mul_lt_mul_right (a := d.clusterSize) ?_
    rw [Nat.succ_mul]
    omega
  rw [Disk.readFile, bytesOf, slice]
  by_cases full : offset = d.clusterSize
  · subst full
    obtain ⟨val, entry, there, below, good⟩ := follow (by omega)
    have skipped : d.skip (d.clusterSize / d.clusterSize) current d.clusterSize = (.success, val, 0) := by
      rw [Nat.div_self sized, Disk.skip, if_pos (le_refl _), entry]
      simp only [good, below, if_false, Nat.sub_self]
      rfl
    obtain ⟨c, done, after⟩ := on.readClusters sized there rfl positive (by rw [Nat.succ_mul]; omega)
    have none : (d.cluster current).drop d.clusterSize = [] := by
      refine List.drop_eq_nil_of_le ?_
      rw [Disk.cluster_length]
    refine ⟨c, ?_, ?_⟩
    · rw [skipped, none, List.take_nil, Nat.sub_self, Nat.sub_zero]
      exact done
    · rw [index (j + 1) (by rw [Nat.succ_mul]; omega) positive]
      exact after
  · have skipped : d.skip (offset / d.clusterSize) current offset = (.success, current, offset) := by
      rw [Nat.div_eq_of_lt (by omega)]
      rfl
    rw [skipped]
    simp only [ne_eq, not_true, if_false]
    by_cases aligned : offset = 0
    · subst aligned
      obtain ⟨c, done, after⟩ := on.readClusters sized here rfl positive (by omega)
      rw [position, Nat.add_zero] at slice
      refine ⟨c, ?_, ?_⟩
      · rw [if_neg (Nat.lt_irrefl 0), done, List.nil_append, bytesOf, slice]
      · rw [index j (by omega) positive]
        exact after
    · rw [if_pos (Nat.pos_of_ne_zero aligned)]
      by_cases inside : d.clusterSize - offset ≥ size
      · rw [if_pos inside, Nat.sub_eq_zero_of_le inside, List.take_zero, List.append_nil]
        refine ⟨current, rfl, ?_⟩
        rw [index (n := offset + size) j (by omega) (by omega), Nat.div_eq_of_lt (by omega)]
        exact here
      · obtain ⟨val, entry, there, below, good⟩ := follow (by omega)
        obtain ⟨c, done, after⟩ := on.readClusters
          sized there rfl (by omega : 0 < size - (d.clusterSize - offset)) (by rw [Nat.succ_mul]; omega)
        have first : ((d.cluster current).drop offset).take size =
            ((d.cluster current).drop offset).take (d.clusterSize - offset) := by
          have long : ((d.cluster current).drop offset).length = d.clusterSize - offset := by
            rw [List.length_drop, Disk.cluster_length]
          rw [List.take_of_length_le (by omega), List.take_of_length_le long.le]
        refine ⟨c, ?_, ?_⟩
        · rw [if_neg inside, entry, if_neg below, if_neg good, first]
          exact done
        · rw [index (n := size - (d.clusterSize - offset)) (j + 1) (by rw [Nat.succ_mul]; omega) (by omega)]
          exact after

theorem OnChain.reads (on : OnChain d node chain) (sized : 0 < d.clusterSize) (small : node.size < 2 ^ 32) :
    Reads (d.fileSystem node) (d.content chain node.size) d.clusterSize fun current j => chain[j]? = some current := by
  have covers := on.covers
  have length : (d.content chain node.size).length = node.size := by rw [Disk.content, List.length_map, List.length_range]
  refine ⟨length.symm, by rw [length]; exact small, fun nonempty => ?_, fun p current n here positive inside => ?_⟩
  · rw [← List.head?_eq_getElem?]
    refine on.start ?_
    rintro rfl
    rw [List.length_nil, Nat.zero_mul] at covers
    exact nonempty (List.eq_nil_of_length_eq_zero (by omega))
  · rw [length] at inside
    obtain ⟨c, done, ends⟩ := on.readFile sized here positive (by omega)
    have same : ((bytesOf d chain).drop p).take n = ((d.content chain node.size).drop p).take n := by
      rw [content_eq covers, List.drop_take, List.take_take, Nat.min_eq_left (by omega)]
    refine ⟨c, ?_, ends⟩
    rw [← same, ← done]
    rfl

/-- `file_read` in pieces of any sizes delivers the content from its first byte to its last, and then the end of
the file; it stores no more than it was asked for. -/
theorem fat32FileReads_content (on : OnChain d node chain) (sectors : 1 ≤ d.sectorsPerCluster) (small : node.size < 2 ^ 32)
    {mode : FileMode} (readable : mode.has fileOpenRead) (slot : Description Nat) {sizes : List Nat}
    (positive : ∀ n ∈ sizes, 0 < n) :
    ∃ file, (d.fileSystem node).fileReads ((d.fileSystem node).fileOpen slot mode) sizes =
        some (pieces (d.content chain node.size) sizes, file) ∧
      ((pieces (d.content chain node.size) sizes).map Prod.snd).flatten = (d.content chain node.size).take sizes.sum ∧
      List.Forall₂ (fun (r : ReadErr × List UInt8) size => r.2.length ≤ size) (pieces (d.content chain node.size) sizes)
        sizes := by
  have sized : 0 < d.clusterSize := Nat.mul_pos sectors (by decide)
  obtain ⟨file, done⟩ := (on.reads sized small).sequential readable slot positive
  exact ⟨file, done, Files.pieces_flatten _ _, Files.pieces_bounded _ _⟩

-- a file of 700 bytes on two clusters
def twoClustersDisk : Disk where
  fat := ⟨fun c => if c = 2 then 3#32 else 0x0fffffff#32, 2, 2, 0#32⟩
  sectorsPerCluster := 1
  data c i := UInt8.ofNat (c + i)

def twoClustersNode : FatNode := ⟨2, true, 700⟩

theorem twoClustersDisk_onChain : OnChain twoClustersDisk twoClustersNode [2, 3] := by
  refine ⟨⟨rfl, by decide, (by decide : twoClustersDisk.fat.link 3 = none)⟩, ?_, fun _ => rfl, by decide⟩
  intro c member
  rcases List.mem_cons.mp member with rfl | member
  · decide
  · rw [List.mem_singleton.mp member]
    decide

theorem fat32FileReads_content_two_clusters :
    ∃ file, (twoClustersDisk.fileSystem twoClustersNode).fileReads
        ((twoClustersDisk.fileSystem twoClustersNode).fileOpen ⟨0, 0, 0⟩ fileOpenRead) [600, 200, 1] =
        some (pieces (twoClustersDisk.content [2, 3] 700) [600, 200, 1], file) ∧
      ((pieces (twoClustersDisk.content [2, 3] 700) [600, 200, 1]).map Prod.snd).flatten =
        (twoClustersDisk.content [2, 3] 700).take 801 ∧
      List.Forall₂ (fun (r : ReadErr × List UInt8) size => r.2.length ≤ size)
        (pieces (twoClustersDisk.content [2, 3] 700) [600, 200, 1]) [600, 200, 1] :=
  fat32FileReads_content twoClustersDisk_onChain (by decide) (by decide) rfl ⟨0, 0, 0⟩ (by simp)

/-! ## Seeks -/

/-- The loop can reach the end of the target's cluster in 32 bits; and a seek forward starts its count at the
cluster the pointer is in. -/
def SeeksFairly (clusterSize : Nat) (p q : Nat) : Prop :=
  p ≠ q → (blockOf clusterSize q + 1) * clusterSize < 2 ^ 32 ∧
    (p < q → Disk.alignDown p clusterSize = blockOf clusterSize p * clusterSize)

theorem OnChain.seekLoop {n : Nat} (on : OnChain d node chain) (here : chain[j]? = some current) (before : j ≤ blockOf d.clusterSize q)
    (inside : blockOf d.clusterSize q < chain.length) (reach : q ≤ (blockOf d.clusterSize q + 1) * d.clusterSize)
    (short : ∀ k < blockOf d.clusterSize q, (k + 1) * d.clusterSize < q)
    (wide : (blockOf d.clusterSize q + 1) * d.clusterSize < 2 ^ 32) (enough : blockOf d.clusterSize q < n + j) :
    ∃ c, d.seekLoop q n current (j * d.clusterSize) = some (.success, blockOf d.clusterSize q * d.clusterSize, c) ∧
      chain[blockOf d.clusterSize q]? = some c := by
  generalize blockOf d.clusterSize q = target at *
  induction n generalizing j current with
  | zero => omega
  | succ n ih =>
      have step : j * d.clusterSize + d.clusterSize = (j + 1) * d.clusterSize := (Nat.succ_mul ..).symm
      have bound : (j + 1) * d.clusterSize ≤ (target + 1) * d.clusterSize := Nat.mul_le_mul_right _ (by omega)
      rw [Disk.seekLoop, step, Nat.mod_eq_of_lt (by omega)]
      dsimp only
      by_cases arrived : j = target
      · subst arrived
        rw [if_pos reach]
        exact ⟨current, rfl, here⟩
      · have less := short j (by omega)
        obtain ⟨val, entry, there, below, good⟩ := on.next here (by omega)
        obtain ⟨c, done, ends⟩ := ih there (by omega) (by omega)
        rw [if_neg (by omega), entry, if_neg good, if_neg below]
        exact ⟨c, done, ends⟩

theorem blockOf_bounds {clusterSize : Nat} (sized : 0 < clusterSize) (q : Nat) :
    q ≤ (blockOf clusterSize q + 1) * clusterSize ∧ (0 < q → blockOf clusterSize q * clusterSize < q) := by
  have whole := Nat.div_add_mod' (q - 1) clusterSize
  have less := Nat.mod_lt (q - 1) sized
  rw [blockOf, Nat.succ_mul]
  omega

theorem OnChain.seeks (on : OnChain d node chain) (sized : 0 < d.clusterSize) :
    Seeks (d.fileSystem node) (d.content chain node.size) d.clusterSize (fun current j => chain[j]? = some current)
      (SeeksFairly d.clusterSize) := by
  have covers := on.covers
  have length : (d.content chain node.size).length = node.size := by rw [Disk.content, List.length_map, List.length_range]
  refine ⟨fun p current s before points inside fair => ?_⟩
  rw [length] at before inside
  have target : (if s < 0 then 0 else s.toNat) = s.toNat := by split_ifs <;> omega
  simp only [Disk.fileSystem, Disk.fat32FileSeekAbsolute, target, Option.bind_eq_bind]
  by_cases same : p = s.toNat
  · subst same
    exact ⟨current, if_pos rfl, points⟩
  obtain ⟨wide, forward⟩ := fair same
  have nonempty : d.content chain node.size ≠ [] := by
    rw [← List.length_pos_iff, length]
    omega
  have points := points nonempty
  have some_ : chain ≠ [] := by
    rintro rfl
    cases points
  have block := blockOf_bounds sized s.toNat
  have within : blockOf d.clusterSize s.toNat < chain.length := by
    refine (Nat.div_lt_iff_lt_mul sized).mpr ?_
    have := Nat.mul_pos (List.length_pos_iff.mpr some_) sized
    omega
  have short : ∀ k < blockOf d.clusterSize s.toNat, (k + 1) * d.clusterSize < s.toNat := by
    intro k less
    have positive : 0 < s.toNat := by
      refine Nat.pos_of_ne_zero fun zero => ?_
      rw [zero, blockOf, Nat.zero_sub, Nat.zero_div] at less
      omega
    exact Nat.lt_of_le_of_lt (Nat.mul_le_mul_right _ less) (block.2 positive)
  -- the loop stops in the cluster of the target
  have found (start j : Nat) (here : chain[j]? = some start) (reached : j ≤ blockOf d.clusterSize s.toNat) :
      ∃ c, (d.seekLoop s.toNat (2 ^ 32) start (j * d.clusterSize)).bind (fun r =>
        if r.1 ≠ .success then some (r.1, p, current)
        else some (.success, if (r.2.1 + d.clusterSize) % 2 ^ 32 < s.toNat then node.size else s.toNat, r.2.2)) =
          some (.success, s.toNat, c) ∧ chain[blockOf d.clusterSize s.toNat]? = some c := by
    have small : blockOf d.clusterSize s.toNat < 2 ^ 32 := by
      have := Nat.le_mul_of_pos_right (blockOf d.clusterSize s.toNat + 1) sized
      omega
    obtain ⟨c, done, ends⟩ := on.seekLoop (n := 2 ^ 32) here reached within block.1 short wide (by omega)
    refine ⟨c, ?_, ends⟩
    rw [done, Option.bind_some, if_neg (fun other => other rfl)]
    dsimp only
    rw [← Nat.succ_mul, Nat.mod_eq_of_lt wide, if_neg (by omega)]
  by_cases ahead : p ≤ s.toNat
  · have start := forward (by omega)
    obtain ⟨c, done, ends⟩ := found current _ points (Nat.div_le_div_right (by omega))
    refine ⟨c, ?_, fun _ => ends⟩
    rw [if_neg same, if_pos ahead, start]
    exact done
  · obtain ⟨c, done, ends⟩ := found node.startCluster 0 (by rw [← List.head?_eq_getElem?]; exact on.start some_) (Nat.zero_le _)
    rw [Nat.zero_mul] at done
    refine ⟨c, ?_, fun _ => ends⟩
    rw [if_neg same, if_neg ahead]
    exact done

-- the mask of a power of two clears the low bits
theorem alignDown_two_pow {k : Nat} (small : p < 2 ^ 32) (wide : k ≤ 64) :
    Disk.alignDown p (2 ^ k) = p / 2 ^ k * 2 ^ k := by
  have mask : p &&& (2 ^ 64 - 2 ^ k) = p / 2 ^ k * 2 ^ k := by
    have ones : 2 ^ 64 - 2 ^ k = 2 ^ 64 - (2 ^ k - 1 + 1) := by rw [Nat.sub_add_cancel (Nat.two_pow_pos k)]
    have less : 2 ^ k - 1 < 2 ^ 64 := by
      have := Nat.pow_le_pow_right (Nat.zero_lt_two) wide
      have := Nat.two_pow_pos k
      omega
    rw [← Nat.shiftRight_eq_div_pow, ← Nat.shiftLeft_eq]
    refine Nat.eq_of_testBit_eq fun i => ?_
    rw [ones, Nat.testBit_and, Nat.testBit_two_pow_sub_succ less, Nat.testBit_two_pow_sub_one, Nat.testBit_shiftLeft,
      Nat.testBit_shiftRight]
    by_cases low : k ≤ i
    · rw [Nat.add_sub_cancel' low]
      by_cases high : i < 64
      · simp [low, high, Nat.not_lt.mpr low]
      · have clear : p.testBit i = false := Nat.testBit_lt_two_pow
          (lt_of_lt_of_le small (Nat.pow_le_pow_right Nat.zero_lt_two (by omega)))
        simp [clear]
    · simp [low, Nat.lt_of_not_le low]
  have below : p / 2 ^ k * 2 ^ k ≤ p := Nat.div_mul_le_self p (2 ^ k)
  rw [Disk.alignDown, mask, Nat.mod_eq_of_lt (by omega)]

theorem seeksFairly_two_pow {k : Nat} (wide : k < 32) (fits : q + 2 ^ k ≤ 2 ^ 32)
    (inside : p < q → p = 0 ∨ p % 2 ^ k ≠ 0) : SeeksFairly (2 ^ k) p q := by
  have sized := Nat.two_pow_pos k
  intro _
  refine ⟨?_, fun forward => ?_⟩
  · have least := (blockOf_bounds sized q).2
    rcases Nat.eq_zero_or_pos q with rfl | positive
    · have less := Nat.pow_lt_pow_right Nat.one_lt_two wide
      rwa [blockOf, Nat.zero_sub, Nat.zero_div, Nat.zero_add, Nat.one_mul]
    · have := least positive
      rw [Nat.succ_mul]
      omega
  · rw [blockOf_inside sized (inside forward), alignDown_two_pow (by omega) (by omega)]

end Kerosene.Fat32
