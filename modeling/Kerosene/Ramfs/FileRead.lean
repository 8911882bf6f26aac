import Kerosene.Files.Reads
import Kerosene.Ramfs.Appenders

/-!
# Reading a regular file

`ramfs_file_read`, `ramfs_file_seek_absolute` and `read_file` of ramfs.c, for nodes of type
`FS_NODE_TYPE_FILE`.
-/

namespace Kerosene.Ramfs
open Lib Files

/-! ## `read_file` -/

-- The first loop. Each round takes a datanode off the offset.
def skipLoop (s : Datanodes Block) : (fuel : Nat) → (start : Addr) → (offset : Nat) → Option (ReadErr × Addr × Nat)
  | 0, start, offset => some (.success, start, offset)
  | fuel + 1, start, offset => do
      if offset ≥ ramfsDatanodeSize then
        let node ← s start
        match node.next with
        | none => return (.eof, start, offset)
        | some next => skipLoop s fuel next (offset - ramfsDatanodeSize)
      else return (.success, start, offset)

def readLoop (s : Datanodes Block) : (fuel : Nat) → (start : Addr) → (size : Nat) → (stored : List UInt8) → Option (Answer Addr)
  | 0, _, _, _ => none
  | fuel + 1, start, size, stored => do
      let node ← s start
      let readSize := if size < ramfsDatanodeSize then size else ramfsDatanodeSize
      let stored := stored ++ node.data.toList.take readSize
      if size - readSize = 0 then return ⟨.success, stored, start⟩
      match node.next with
      | none => return ⟨.eof, stored, start⟩
      | some next => readLoop s fuel next (size - readSize) stored

def readFile (s : Datanodes Block) (start : Addr) (size dataOffset : Nat) : Option (Answer Addr) := do
  let (err, start, dataOffset) ← skipLoop s (dataOffset / ramfsDatanodeSize) start dataOffset
  if err ≠ .success then return ⟨err, [], start⟩
  if dataOffset > 0 then
    let node ← s start
    let readSize := ramfsDatanodeSize - dataOffset
    if size ≤ readSize then return ⟨.success, (node.data.toList.drop dataOffset).take size, start⟩
    let stored := (node.data.toList.drop dataOffset).take readSize
    match node.next with
    | none => return ⟨.eof, stored, start⟩
    | some next => readLoop s (size + 1) next (size - readSize) stored
  else readLoop s (size + 1) start size []

section Chain
variable {s : Datanodes Block} {first : Option Addr} {nodes : List Addr} {start : Addr} {j size fuel p : Nat} {stored : List UInt8}

theorem Datanodes.Chain.at_index (chain : s.Chain first nodes) (here : nodes[j]? = some start) :
    ∃ node, s start = some node ∧ (nodes.map s.row)[j]? = some node.data.toList ∧ node.next = nodes[j + 1]? := by
  obtain ⟨node, allocated⟩ := Option.isSome_iff_exists.mp (chain.allocated start (List.mem_of_getElem? here))
  refine ⟨node, allocated, ?_, ?_⟩
  · rw [List.getElem?_map, here, Option.map_some, Datanodes.row_eq allocated]
  · rw [← chain.links.next_getElem? here, Datanodes.link, allocated, Option.bind_some]

theorem readLoop_spec {n : Nat} (chain : s.Chain first nodes) (here : nodes[j]? = some start) (positive : 0 < size)
    (covers : 512 * j + size ≤ 512 * nodes.length) (enough : size < n) :
    ∃ a, readLoop s n start size stored = some ⟨.success, stored ++ ((s.bytes nodes).drop (512 * j)).take size, a⟩ ∧
      nodes[j + (size - 1) / 512]? = some a := by
  induction n generalizing j start size stored with
  | zero => omega
  | succ n ih =>
      have blockSize : ramfsDatanodeSize = 512 := rfl
      obtain ⟨node, allocated, row, next⟩ := chain.at_index here
      have slice := (Datanodes.blocks_row chain.allocated).slice row (Nat.zero_le 512) size
      rw [Nat.add_zero, List.drop_zero, Nat.sub_zero, Nat.mul_comm, Nat.mul_comm (j + 1)] at slice
      rw [readLoop, allocated, Datanodes.bytes, slice]
      simp only [Option.bind_eq_bind, Option.bind_some]
      by_cases last : size ≤ 512
      · have whole : (if size < ramfsDatanodeSize then size else ramfsDatanodeSize) = size := by split_ifs <;> omega
        have index : j + (size - 1) / 512 = j := by omega
        have ended : size - 512 = 0 := by omega
        rw [whole, if_pos (Nat.sub_self _), ended, List.take_zero, List.append_nil, index]
        exact ⟨start, rfl, here⟩
      · have full : (if size < ramfsDatanodeSize then size else ramfsDatanodeSize) = 512 := if_neg (by omega)
        have more : j + 1 < nodes.length := by omega
        rw [full, if_neg (by omega), next, List.getElem?_eq_getElem more]
        have left : 0 < size - 512 := by omega
        have covers' : 512 * (j + 1) + (size - 512) ≤ 512 * nodes.length := by omega
        have enough' : size - 512 < n := by omega
        obtain ⟨a, done, ends⟩ := ih (List.getElem?_eq_getElem more) left
          covers' enough'
        have all : node.data.toList.take size = node.data.toList.take 512 := by
          have long : node.data.toList.length = 512 := node.data.length_toList
          rw [List.take_of_length_le (by omega), List.take_of_length_le long.le]
        refine ⟨a, ?_, ?_⟩
        · dsimp only
          rw [done, all, List.append_assoc]
          rfl
        · rw [← ends]
          congr 1
          omega

theorem readFile_spec (chain : s.Chain first nodes) (here : nodes[blockOf ramfsDatanodeSize p]? = some start) (positive : 0 < size)
    (covers : p + size ≤ 512 * nodes.length) :
    ∃ a, readFile s start size (File.dataOffsetOf p) = some ⟨.success, ((s.bytes nodes).drop p).take size, a⟩ ∧
      nodes[blockOf ramfsDatanodeSize (p + size)]? = some a := by
  have blockSize : ramfsDatanodeSize = 512 := rfl
  obtain ⟨position, small⟩ := File.dataOffsetOf_spec p
  have ends : blockOf ramfsDatanodeSize (p + size) = (p + size - 1) / 512 := rfl
  rw [ends]
  change p = 512 * blockOf ramfsDatanodeSize p + _ at position
  generalize blockOf ramfsDatanodeSize p = j at *
  generalize File.dataOffsetOf p = offset at *
  obtain ⟨node, allocated, row, next⟩ := chain.at_index here
  have slice := (Datanodes.blocks_row chain.allocated).slice row small size
  rw [Nat.mul_comm, ← position, Nat.mul_comm (j + 1)] at slice
  have follow : 512 - offset < size → ∃ next, nodes[j + 1]? = some next := fun beyond =>
    ⟨_, List.getElem?_eq_getElem (show j + 1 < nodes.length by omega)⟩
  rw [readFile, blockSize, Datanodes.bytes, slice]
  by_cases full : offset = 512
  · subst full
    obtain ⟨after, there⟩ := follow (by omega)
    rw [there] at next
    obtain ⟨a, done, ends⟩ := readLoop_spec chain there positive (by omega) (Nat.lt_succ_self _)
    have skipped : skipLoop s (512 / 512) start 512 = some (.success, after, 0) := by
      simp [skipLoop, blockSize, allocated, next]
    have none : node.data.toList.drop 512 = [] := List.drop_eq_nil_of_le node.data.length_toList.le
    refine ⟨a, ?_, ?_⟩
    · rw [skipped, none, List.take_nil, Nat.sub_self, Nat.sub_zero]
      exact done
    · rw [← ends]
      congr 1
      omega
  · have skipped : skipLoop s (offset / 512) start offset = some (.success, start, offset) := by
      rw [Nat.div_eq_of_lt (by omega)]
      rfl
    rw [skipped]
    simp only [Option.bind_eq_bind, Option.bind_some, ne_eq, not_true, if_false]
    by_cases aligned : offset = 0
    · subst aligned
      obtain ⟨a, done, ends⟩ := readLoop_spec chain here positive (by omega) (Nat.lt_succ_self _)
      rw [position, Nat.add_zero, List.drop_zero, Nat.sub_zero] at slice
      refine ⟨a, ?_, ?_⟩
      · rw [if_neg (Nat.lt_irrefl 0), done, List.nil_append, Datanodes.bytes, slice]
        rfl
      · rw [← ends]
        congr 1
        omega
    · rw [if_pos (Nat.pos_of_ne_zero aligned), allocated, Option.bind_some]
      by_cases inside : size ≤ 512 - offset
      · rw [if_pos inside, Nat.sub_eq_zero_of_le inside, List.take_zero, List.append_nil]
        refine ⟨start, rfl, ?_⟩
        rw [← here]
        congr 1
        omega
      · obtain ⟨after, there⟩ := follow (by omega)
        rw [there] at next
        obtain ⟨a, done, ends⟩ := readLoop_spec (n := size + 1)
          chain there (by omega : 0 < size - (512 - offset)) (by omega) (by omega)
        have first : (node.data.toList.drop offset).take size = (node.data.toList.drop offset).take (512 - offset) := by
          have long : (node.data.toList.drop offset).length = 512 - offset := by
            rw [List.length_drop, Vector.length_toList]
          rw [List.take_of_length_le (by omega), List.take_of_length_le long.le]
        refine ⟨a, ?_, ?_⟩
        · rw [if_neg inside, next, first]
          exact done
        · rw [← ends]
          congr 1
          omega

end Chain

namespace File

def ramfsFileRead (f : File) (position : Nat) (current : Option Addr) (size : Nat) : Option (Answer (Option Addr)) := do
  let r ← readFile f.datanode (← current) size (dataOffsetOf position)
  return ⟨r.err, r.stored, some r.current⟩

/-! ## `ramfs_file_seek_absolute` -/

-- `current_size` when the loop ends, and the datanode
def seekLoop (s : Datanodes Block) (seekPosition : Nat) :
    (fuel : Nat) → (current : Option Addr) → (currentSize : Nat) → Option (Nat × Option Addr)
  | 0, _, _ => none
  | fuel + 1, current, currentSize => do
      if currentSize + ramfsDatanodeSize ≥ seekPosition then return (currentSize, current)
      let node ← s (← current)
      match node.next with
      | some next => seekLoop s seekPosition fuel (some next) (currentSize + ramfsDatanodeSize)
      -- not taken back here
      | none => return (currentSize + ramfsDatanodeSize, current)

def ramfsFileSeekAbsolute (f : File) (position : Nat) (current : Option Addr) (seekPosition : Int) :
    Option (ReadErr × Nat × Option Addr) := do
  let seekPosition := if seekPosition < 0 then 0 else seekPosition.toNat
  let (start, startSize) := if position < seekPosition then (current, position - position % ramfsDatanodeSize)
    else (f.datanodeChain, 0)
  let (currentSize, current) ← seekLoop f.datanode seekPosition chainFuel start startSize
  return (.success, if currentSize + ramfsDatanodeSize < seekPosition then f.size else seekPosition, current)

def fileSystem (f : File) : FileSystem (Option Addr) where
  chain := f.datanodeChain
  size := f.size
  fsFileSeekAbsolute := f.ramfsFileSeekAbsolute
  fsFileRead := f.ramfsFileRead

/-! ## A file read from its chain -/

section Contains
variable {f : File} {content : List UInt8} {nodes : List Addr} {j fuel q : Nat} {a : Addr}

-- the descriptor's pointer is datanode `j`
def PointsTo (nodes : List Addr) (current : Option Addr) (j : Nat) : Prop := ∃ a, current = some a ∧ nodes[j]? = some a

theorem reads (chain : f.datanode.Chain f.datanodeChain nodes) (stored : content <+: f.datanode.bytes nodes)
    (size : f.size = content.length) (small : f.size < 2 ^ 32) :
    Reads f.fileSystem content ramfsDatanodeSize (PointsTo nodes) := by
  have long := stored.length_le
  rw [Datanodes.bytes_length chain.allocated] at long
  refine ⟨size, by rw [← size]; exact small, fun nonempty => ?_, ?_⟩
  · cases nodes with
    | nil =>
        have := List.length_pos_iff.mpr nonempty
        rw [List.length_nil] at long
        omega
    | cons a nodes => exact ⟨a, chain.links.1, rfl⟩
  · rintro p g n ⟨a, rfl, here⟩ positive inside
    obtain ⟨b, done, ends⟩ := readFile_spec chain here positive (by omega)
    obtain ⟨rest, whole⟩ := stored
    have same : ((f.datanode.bytes nodes).drop p).take n = (content.drop p).take n := by
      rw [← whole, List.drop_append_of_le_length (by omega), List.take_append_of_le_length (by rw [List.length_drop]; omega)]
    refine ⟨some b, ?_, b, rfl, ends⟩
    simp only [fileSystem, ramfsFileRead, Option.bind_eq_bind, Option.bind_some, done, same]
    rfl

/-- `file_read` in pieces of any sizes delivers the content from its first byte to its last, and then the end of
the file. -/
theorem fileReads_content (contains : f.Contains content) (small : f.size < 2 ^ 32) {mode : FileMode}
    (readable : mode.has fileOpenRead) (slot : Description (Option Addr)) {sizes : List Nat} (positive : ∀ n ∈ sizes, 0 < n) :
    ∃ file, f.fileSystem.fileReads (f.fileSystem.fileOpen slot mode) sizes = some (pieces content sizes, file) ∧
      ((pieces content sizes).map Prod.snd).flatten = content.take sizes.sum := by
  obtain ⟨nodes, chain, stored⟩ := contains.stored
  obtain ⟨file, done⟩ := (reads chain stored contains.size small).sequential readable slot positive
  exact ⟨file, done, pieces_flatten content sizes⟩

-- a file of three bytes
def threeBytes : File := ⟨Datanodes.put (fun _ => none) 1 ⟨none, Vector.replicate 512 7⟩, some 1, 3⟩

theorem threeBytes_contains : threeBytes.Contains [7, 7, 7] := by
  refine ⟨rfl, [1], Datanodes.chain_cons.mpr ⟨⟨none, Vector.replicate 512 7⟩, rfl, rfl, rfl, by simp⟩, ?_⟩
  change _ <+: (Vector.replicate 512 (7 : UInt8)).toList ++ []
  rw [Vector.toList_replicate, List.append_nil]
  exact ⟨List.replicate 509 7, rfl⟩

theorem fileReads_content_three_bytes :
    ∃ file, threeBytes.fileSystem.fileReads (threeBytes.fileSystem.fileOpen ⟨0, 0, none⟩ fileOpenRead) [2, 5, 1] =
        some ([(.success, [7, 7]), (.success, [7]), (.eof, [])], file) ∧
      ((pieces [7, 7, 7] [2, 5, 1]).map Prod.snd).flatten = [7, 7, 7] :=
  fileReads_content threeBytes_contains (by decide) rfl ⟨0, 0, none⟩ (by simp)

/-! ## Seeks -/

/-- A seek forward does not start where a datanode ends: the pointer is then a datanode behind. -/
def NotFromEdge (p q : Nat) : Prop := p < q → p = 0 ∨ p % ramfsDatanodeSize ≠ 0

theorem seekLoop_spec {n : Nat} {s : Datanodes Block} {first : Option Addr} (chain : s.Chain first nodes) (here : nodes[j]? = some a)
    (before : j ≤ blockOf ramfsDatanodeSize q) (inside : q ≤ 512 * nodes.length) (enough : nodes.length ≤ n + j) :
    ∃ b, seekLoop s q n (some a) (512 * j) = some (512 * blockOf ramfsDatanodeSize q, some b) ∧
      nodes[blockOf ramfsDatanodeSize q]? = some b := by
  induction n generalizing j a with
  | zero =>
      have := (List.getElem?_eq_some_iff.mp here).1
      omega
  | succ n ih =>
      have blockSize : ramfsDatanodeSize = 512 := rfl
      have block : blockOf ramfsDatanodeSize q = (q - 1) / 512 := rfl
      rw [seekLoop]
      by_cases arrived : 512 * j + ramfsDatanodeSize ≥ q
      · have same : blockOf ramfsDatanodeSize q = j := by omega
        rw [if_pos arrived, same]
        exact ⟨a, rfl, here⟩
      · have more : j + 1 < nodes.length := by omega
        obtain ⟨node, allocated, -, next⟩ := chain.at_index here
        rw [List.getElem?_eq_getElem more] at next
        obtain ⟨b, done, ends⟩ := ih (List.getElem?_eq_getElem more) (by omega) (by omega)
        refine ⟨b, ?_, ends⟩
        rw [if_neg arrived]
        simp only [Option.bind_eq_bind, Option.bind_some, allocated, next]
        exact done

theorem seeks (chain : f.datanode.Chain f.datanodeChain nodes) (stored : content <+: f.datanode.bytes nodes) :
    Seeks f.fileSystem content ramfsDatanodeSize (PointsTo nodes) NotFromEdge := by
  have blockSize : ramfsDatanodeSize = 512 := rfl
  have long := stored.length_le
  rw [Datanodes.bytes_length chain.allocated] at long
  refine ⟨fun p g s before points inside away => ?_⟩
  have target : (if s < 0 then 0 else s.toNat) = s.toNat := by split_ifs <;> omega
  have block (q : Nat) : blockOf ramfsDatanodeSize q = (q - 1) / 512 := rfl
  -- the loop stops in the block of the target
  have found (start : Option Addr) (j : Nat) (here : PointsTo nodes start j) (reached : j ≤ blockOf ramfsDatanodeSize s.toNat)
      (startSize : Nat) (size : startSize = 512 * j) :
      ∃ g, (seekLoop f.datanode s.toNat chainFuel start startSize).bind (fun r => some (ReadErr.success,
        if r.1 + ramfsDatanodeSize < s.toNat then f.size else s.toNat, r.2)) = some (.success, s.toNat, g) ∧
          PointsTo nodes g (blockOf ramfsDatanodeSize s.toNat) := by
    obtain ⟨a, rfl, here⟩ := here
    have bound := chain.length_le
    obtain ⟨b, done, ends⟩ := seekLoop_spec (n := chainFuel) chain here reached (by omega) (by omega)
    have block := block s.toNat
    refine ⟨some b, ?_, b, rfl, ends⟩
    rw [size, done, Option.bind_some, if_neg (by omega)]
  by_cases empty : content = []
  · -- both positions are 0, and the loop stops at once
    subst empty
    have nowhere : s.toNat = 0 := by simp at inside; omega
    have atStart : p = 0 := by simpa using before
    refine ⟨f.datanodeChain, ?_, fun nonempty => absurd rfl nonempty⟩
    simp [fileSystem, ramfsFileSeekAbsolute, nowhere, atStart, chainFuel, seekLoop]
  · have points := points empty
    simp only [fileSystem, ramfsFileSeekAbsolute, target, Option.bind_eq_bind]
    by_cases forward : p < s.toNat
    · have start := away forward
      rw [blockSize] at start
      have index := block p
      have index' := block s.toNat
      obtain ⟨g, done, ends⟩ := found g _ points (by omega) (p - p % ramfsDatanodeSize) (by rw [index, blockSize]; omega)
      refine ⟨g, ?_, fun _ => ends⟩
      rw [if_pos forward]
      exact done
    · obtain ⟨a, nodes', rfl⟩ : ∃ a nodes', nodes = a :: nodes' := by
        refine List.exists_cons_of_ne_nil ?_
        rintro rfl
        have := List.length_pos_iff.mpr empty
        rw [List.length_nil] at long
        omega
      obtain ⟨g, done, ends⟩ := found f.datanodeChain 0 ⟨a, chain.links.1, rfl⟩ (Nat.zero_le _) 0 rfl
      refine ⟨g, ?_, fun _ => ends⟩
      rw [if_neg forward]
      exact done

end Contains
end File
end Kerosene.Ramfs
