import Kerosene.Fat32.DirectoryRead

/-!
# `fat32_add_entry`

The `clear` of `fat32_allocate_clusters` is left out: its `ata_pio_LBA28_access(true, ...)` reads the
cluster into the buffer of zeros, so that it changes nothing on the disk.
-/

namespace Kerosene.Fat32
open Lib Libc
open Ramfs (Name filenameLimit)
open Ramfs.Heap (dot dotdot)

def timerFrequency : Nat := 1000

-- `timer_get_current_ticks` and `timer_get_current_time`
structure Clock where
  ticks : Nat
  time : Int

def toupper (c : UInt8) : UInt8 := if 0x61 ≤ c ∧ c ≤ 0x7a then c - 0x61 + 0x41 else c

-- `!strcmp_case_insensitive(entry_name, name)`
def sameIgnoringCase (entryName : Int → UInt8) : (i : Nat) → Name → Bool
  | i, [] => toupper (entryName i) = 0
  | i, c :: name =>
      if entryName i ≠ 0 ∧ toupper (entryName i) = toupper c then sameIgnoringCase entryName (i + 1) name
      else toupper (entryName i) = toupper c

inductive Search
  | ended (s : Decoder)
  | free (startIndex : Nat)
  | existed

def searchCluster (name : Name) (directory : Bytes) : (slots : Nat) → (i : Nat) → Decoder → Search
  | 0, _, s => .ended s
  | slots + 1, i, s =>
      if directory i = 0x00 then .free i
      else if directory i = 0xe5 then searchCluster name directory slots (i + 32) s
      else if directory (i + 11) = 0x0f then
        searchCluster name directory slots (i + 32) (s.processLfnEntry (.ofBytes (slotAt directory i)))
      else
        let s := if s.lfnReady then s else s.processSfnEntry (.ofBytes (slotAt directory i))
        if sameIgnoringCase s.entryName 0 name then .existed
        else searchCluster name directory slots (i + 32) { s with lfnReady := false, foundLastLfnEntry := false }

def lfnEntryCount (name : Name) : Nat :=
  if name = dot ∨ name = dotdot ∨ isValidSfn name then 0 else (name.length + 12) / 13

-- the conversion of a `char` to `uint16_t`
def charToUint16 (c : UInt8) : UInt16 := if c < 0x80 then c.toUInt16 else c.toUInt16 + 0xff00

-- Entry `i` of the long name. After the terminator the `memset` leaves zeros.
def lfnEntry (name : Name) (count : Nat) (checksum : UInt8) (i : Nat) : FatLfnEntry :=
  let char := fun j => charToUint16 (name.getD ((i - 1) * 13 + j) 0)
  { order := if i = count then .ofNat i ||| 0x40 else .ofNat i
    chars1 := Vector.ofFn fun j => char j
    attr := 0x0f
    longEntryType := 0
    checksum := checksum
    chars2 := Vector.ofFn fun j => char (j + 5)
    zero := 0
    chars3 := Vector.ofFn fun j => char (j + 5 + 6) }

-- The directory entry, whose `reserved` byte is the one `old` has.
def shortEntry (name : Name) (startCluster : UInt32) (attr : UInt8) (size : UInt32) (clock : Clock) (old : UInt8) :
    Option FatDirectoryEntry := do
  let creationMilisecond := UInt16.ofNat (clock.ticks * 1000 / timerFrequency)
  let created := parseTimestamp (← gmtime clock.time)
  let never := parseTimestamp (← gmtime 0)
  let shortname := shortName name (attr &&& fatAttrDirectory ≠ 0)
  return {
    name := Vector.ofFn fun i => shortname.getD i 0
    attr := attr
    reserved := old
    centisecond := (creationMilisecond / 10).toUInt8
    creationTime := created.2
    creationDate := created.1
    lastAccessDate := never.1
    firstClusterNumberHigh := (startCluster >>> 16).toUInt16
    lastModTime := never.2
    lastModDate := never.1
    firstClusterNumberLow := (startCluster &&& 0xffff).toUInt16
    size := size }

-- Where the next entry goes, and the buffer with the cluster's bytes.
structure Cursor where
  directory : Bytes
  current : Nat
  startIndex : Nat

-- the last loop, which marks the remaining slots of the cluster free
def clearSlots (clusterSize startIndex : Nat) (directory : Bytes) : Bytes :=
  fun i => if startIndex ≤ i ∧ i < clusterSize ∧ (i - startIndex) % 32 = 0 then 0 else directory i

-- an `int`, from a `size_t` that wraps around
def estimatedNewClusterCount (clusterSize lfnEntryCount startIndex : Nat) : Int :=
  toInt (toUnsigned (lfnEntryCount - ((clusterSize - startIndex) / 32 : Nat) + 17) / (clusterSize / 32))

namespace Disk

def expandChain (d : Disk) (endCluster clusterCount : Nat) : Option (Nat × Disk) :=
  (d.fat.expandClusterChain endCluster clusterCount).map fun (newCluster, fat) => (newCluster, d.withFat fat)

-- The search for a free slot, `none` when the clusters do not end within `fuel` rounds.
def findSpace (name : Name) : (fuel : Nat) → Disk → (current : Nat) → (newClusterCreated : Bool) → Decoder →
    Option (DirErr × Disk × Cursor)
  | 0, _, _, _, _ => none
  | fuel + 1, d, current, newClusterCreated, s =>
      let directory := if newClusterCreated then fun _ => 0 else d.data current
      match searchCluster name directory (d.slotCount 0) 0 s with
      | .existed => some (.entryExisted, d, ⟨directory, current, 0⟩)
      | .free startIndex => some (.success, d, ⟨directory, current, startIndex⟩)
      | .ended s =>
          let val := d.fat.getFatEntry current
          if val ≥ fatEoc then
            match d.expandChain current 1 with
            | none => none
            | some (newCluster, d) =>
                if newCluster = 0 then some (.notEnoughSpace, d, ⟨directory, newCluster, 0⟩)
                else findSpace name fuel d newCluster true s
          else findSpace name fuel d val newClusterCreated s

-- the clusters that `expand_cluster_chain` is asked for, where the estimate is positive
def newClusterCount (d : Disk) (lfnEntryCount startIndex : Nat) : Nat :=
  (estimatedNewClusterCount d.clusterSize lfnEntryCount startIndex).toNat

-- One entry into the buffer; a full buffer goes to the disk.
def putEntry (d : Disk) (c : Cursor) (entry : List UInt8) : Disk × Cursor :=
  let directory := patch c.directory c.startIndex entry
  let startIndex := c.startIndex + 32
  if startIndex ≥ d.clusterSize then
    (d.setData c.current directory, ⟨directory, d.fat.getFatEntry c.current, 0⟩)
  else (d, ⟨directory, c.current, startIndex⟩)

def putLfnEntries (name : Name) (count : Nat) (checksum : UInt8) : (i : Nat) → Disk → Cursor → Disk × Cursor
  | 0, d, c => (d, c)
  | i + 1, d, c =>
      let (d, c) := d.putEntry c (lfnEntry name count checksum (i + 1)).bytes
      putLfnEntries name count checksum i d c

def finish (d : Disk) (c : Cursor) : Disk :=
  if c.startIndex ≠ 0 then d.setData c.current (clearSlots d.clusterSize c.startIndex c.directory) else d

-- All before the entries are written: the search for a free slot, and the new clusters.
def makeRoom (d : Disk) (fuel parent : Nat) (name : Name) (entryName : Int → UInt8) : Option (DirErr × Disk × Cursor) :=
  match findSpace name fuel d parent false (.start entryName) with
  | some (.success, d, c) =>
      let count := d.newClusterCount (lfnEntryCount name) c.startIndex
      if count > 0 then
        match d.expandChain c.current count with
        | none => none
        | some (valid, d) => if valid = 0 then some (.notEnoughSpace, d, c) else some (.success, d, c)
      else some (.success, d, c)
  | failed => failed

-- The entries, written from the cursor on, and the node.
def writeEntries (d : Disk) (c : Cursor) (name : Name) (startCluster : UInt32) (attr : UInt8) (size : UInt32)
    (clock : Clock) (old : Bytes) : Option (Disk × FsNode) := do
  let count := lfnEntryCount name
  let checksum := genChecksum (shortName name (attr &&& fatAttrDirectory ≠ 0))
  let (d, c) := putLfnEntries name count checksum count d c
  let entry ← shortEntry name startCluster attr size clock (c.directory (c.startIndex + 12))
  let node :=
    { name := patch old 0 (name ++ [0])
      flags := toFsNodeFlags attr
      size := size
      startCluster := startCluster
      creationMilisecond := .ofNat (clock.ticks * 1000 / timerFrequency)
      creationTimestamp := clock.time
      accessedTimestamp := 0
      modifiedTimestamp := 0
      parentCluster := c.current
      parentClusterIndex := c.startIndex }
  let (d, c) := d.putEntry c entry.bytes
  return (d.finish c, node)

def fat32AddEntry (d : Disk) (fuel parent : Nat) (name : Name) (startCluster : UInt32) (attr : UInt8) (size : UInt32)
    (newNode : FsNode) (clock : Clock) (entryName : Int → UInt8) : Option (DirErr × Disk × FsNode) := do
  let (err, d, c) ← d.makeRoom fuel parent name entryName
  if err ≠ .success then return (err, d, { newNode with flags := 0 })
  let (d, node) ← d.writeEntries c name startCluster attr size clock newNode.name
  return (.success, d, node)

end Disk

/-! ## What is written -/

namespace Disk
variable {d : Disk} {c : Cursor} {entry : List UInt8} {entries : List (List UInt8)} {k : Nat}

def putAll : List (List UInt8) → Disk → Cursor → Disk × Cursor
  | [], d, c => (d, c)
  | entry :: entries, d, c => putAll entries (d.putEntry c entry).1 (d.putEntry c entry).2

theorem putAll_append (l r : List (List UInt8)) (d : Disk) (c : Cursor) :
    putAll (l ++ r) d c = putAll r (putAll l d c).1 (putAll l d c).2 := by
  induction l generalizing d c with
  | nil => rfl
  | cons entry l ih => exact ih _ _

@[simp] theorem slotsPerCluster_setData (d : Disk) (cluster : Nat) (bytes : Nat → UInt8) :
    (d.setData cluster bytes).slotsPerCluster = d.slotsPerCluster := rfl

@[simp] theorem clusterSlots_setData_self (d : Disk) (cluster : Nat) (bytes : Nat → UInt8) :
    (d.setData cluster bytes).clusterSlots cluster = slotsFrom bytes 0 d.slotsPerCluster := by
  have data : (d.setData cluster bytes).data cluster = bytes := Function.update_self _ _ _
  rw [clusterSlots, data, slotsPerCluster_setData]

theorem clusterSlots_congr {d d' : Disk} {c : Nat} (same : d'.data c = d.data c)
    (sectors : d'.sectorsPerCluster = d.sectorsPerCluster) : d'.clusterSlots c = d.clusterSlots c := by
  rw [clusterSlots, same, slotsPerCluster, clusterSize, sectors]
  rfl

theorem slotAt_congr {directory directory' : Bytes} {i : Nat} (same : ∀ j, i ≤ j → j < i + 32 → directory' j = directory j) :
    slotAt directory' i = slotAt directory i := by
  apply List.map_congr_left
  intro j member
  rw [List.mem_range] at member
  exact same _ (by omega) (by omega)

theorem slotAt_patch_self (length : entry.length = 32) (directory : Bytes) (i : Nat) :
    slotAt (patch directory i entry) i = entry := by
  apply List.ext_getElem
  · rw [length_slotAt, length]
  · intro j inside _
    rw [length_slotAt] at inside
    simp only [slotAt, List.getElem_map, List.getElem_range, patch]
    rw [if_pos (by omega), Nat.add_sub_cancel_left]
    simp [length, inside]

theorem slotsFrom_patch (length : entry.length = 32) (directory : Bytes) (k : Nat) :
    slotsFrom (patch directory (32 * k) entry) 0 (k + 1) = slotsFrom directory 0 k ++ [entry] := by
  rw [slotsFrom, List.range_succ, List.map_append, List.map_singleton, Nat.zero_add, slotAt_patch_self length]
  congr 1
  apply List.map_congr_left
  intro j member
  rw [List.mem_range] at member
  apply slotAt_congr
  intro i _ inside
  exact if_neg (by omega)

theorem take_clearSlots {n : Nat} (inside : k ≤ n) (clusterSize : Nat) (directory : Bytes) :
    (slotsFrom (clearSlots clusterSize (32 * k) directory) 0 n).take k = slotsFrom directory 0 k := by
  rw [slotsFrom, ← List.map_take, List.take_range, Nat.min_eq_left inside]
  apply List.map_congr_left
  intro j member
  rw [List.mem_range] at member
  apply slotAt_congr
  intro i _ before
  exact if_neg (by omega)

theorem head_clearSlots {n : Nat} (inside : k < d.slotsPerCluster) (size : 32 * n = d.clusterSize) (directory : Bytes)
    (more : List (List UInt8)) :
    Stops ((slotsFrom (clearSlots d.clusterSize (32 * k) directory) 0 n).drop k ++ more) := by
  have same := d.clusterSize_eq
  have row := drop_slotsFrom (clearSlots d.clusterSize (32 * k) directory) 0 n k
  obtain ⟨m, last⟩ : ∃ m, n - k = m + 1 := Nat.exists_eq_add_one.mpr (by omega)
  intro slot head
  rw [row, last, slotsFrom_succ, List.cons_append, List.head?_cons] at head
  cases head
  rw [slotAt_getD (by decide), Nat.zero_add, Nat.add_zero]
  exact if_pos ⟨le_rfl, by omega, by rw [Nat.sub_self]⟩

/-- What stands from slot `p` on: the rest of a cluster is marked free, a cluster that starts there is as it was. -/
def Behind (d : Disk) (chain : List Nat) (p : Nat) (tail : List (List UInt8)) : Prop :=
  if p % d.slotsPerCluster = 0 then tail = (d.dirSlots chain).drop p else Stops tail

/-- `entries` stand in the slots of `c.current` and `cs`, behind the `k` first slots of the buffer. -/
structure Written (d d' : Disk) (c : Cursor) (cs : List Nat) (k : Nat) (entries : List (List UInt8)) : Prop where
  slots : ∃ tail, d'.dirSlots (c.current :: cs) = slotsFrom c.directory 0 k ++ entries ++ tail ∧
    d.Behind (c.current :: cs) (k + entries.length) tail
  fat : d'.fat = d.fat
  sectors : d'.sectorsPerCluster = d.sectorsPerCluster
  others : ∀ x ∉ c.current :: cs, d'.data x = d.data x

theorem finish_written (d : Disk) (c : Cursor) (cs : List Nat) (start : c.startIndex = 32 * k) (inside : k < d.slotsPerCluster) :
    Written d (d.finish c) c cs k [] := by
  by_cases zero : c.startIndex = 0
  · obtain rfl : k = 0 := by omega
    rw [finish, if_neg (not_not.mpr zero)]
    refine ⟨⟨d.dirSlots (c.current :: cs), rfl, ?_⟩, rfl, rfl, fun _ _ => rfl⟩
    rw [Behind, List.length_nil, Nat.add_zero, Nat.zero_mod, if_pos rfl, List.drop_zero]
  · rw [finish, if_pos zero]
    let bytes := clearSlots d.clusterSize c.startIndex c.directory
    let cleared := slotsFrom bytes 0 d.slotsPerCluster
    refine ⟨⟨cleared.drop k ++ (d.setData c.current bytes).dirSlots cs, ?_, ?_⟩, rfl, rfl, fun x other => ?_⟩
    · have kept : cleared.take k = slotsFrom c.directory 0 k := by
        simp only [cleared, bytes, start]
        exact take_clearSlots inside.le _ _
      rw [dirSlots_cons, clusterSlots_setData_self, List.append_nil, ← List.append_assoc, ← kept, List.take_append_drop]
    · rw [Behind, List.length_nil, Nat.add_zero, Nat.mod_eq_of_lt inside, if_neg (by omega)]
      simp only [cleared, bytes, start]
      exact head_clearSlots inside d.clusterSize_eq.symm _ _
    · exact Function.update_of_ne (List.ne_of_not_mem_cons other) _ _

theorem dirSlots_congr {d d' : Disk} {chain : List Nat} (same : ∀ c ∈ chain, d'.data c = d.data c)
    (sectors : d'.sectorsPerCluster = d.sectorsPerCluster) : d'.dirSlots chain = d.dirSlots chain := by
  induction chain with
  | nil => rfl
  | cons c chain ih =>
      obtain ⟨first, later⟩ := List.forall_mem_cons.mp same
      rw [dirSlots_cons, dirSlots_cons, ih later, clusterSlots_congr first sectors]

theorem Behind.cons {chain : List Nat} {p : Nat} {tail : List (List UInt8)} {bytes : Nat → UInt8} {x : Nat} (fresh : x ∉ chain)
    (behind : (d.setData x bytes).Behind chain p tail) : d.Behind (x :: chain) (d.slotsPerCluster + p) tail := by
  have same : (d.setData x bytes).dirSlots chain = d.dirSlots chain := by
    refine dirSlots_congr (fun c member => Function.update_of_ne ?_ _ _) rfl
    rintro rfl
    exact fresh member
  rw [Behind, slotsPerCluster_setData, same] at behind
  rw [Behind, Nat.add_mod_left, dirSlots_cons, ← List.drop_drop, List.drop_left' (length_clusterSlots d x)]
  exact behind

theorem putAll_written {cs : List Nat} (nodup : (c.current :: cs).Nodup)
    (follows : (c.current :: cs).IsChain fun a b => d.fat.getFatEntry a = b)
    (start : c.startIndex = 32 * k) (inside : k < d.slotsPerCluster) (lengths : ∀ entry ∈ entries, entry.length = 32)
    (room : entries.length ≤ d.slotsPerCluster - k + d.slotsPerCluster * cs.length) :
    Written d ((putAll entries d c).1.finish (putAll entries d c).2) c cs k entries := by
  induction entries generalizing d c cs k with
  | nil => exact finish_written d c cs start inside
  | cons entry entries ih =>
      have length := lengths entry List.mem_cons_self
      have lengths' : ∀ e ∈ entries, e.length = 32 := fun e member => lengths e (List.mem_cons_of_mem _ member)
      have size := d.clusterSize_eq
      rw [List.length_cons] at room
      rw [putAll]
      by_cases more : k + 1 < d.slotsPerCluster
      · -- the entry stays in the buffer
        have put : d.putEntry c entry = (d, ⟨patch c.directory c.startIndex entry, c.current, c.startIndex + 32⟩) :=
          if_neg (by omega)
        have patched := slotsFrom_patch (k := k) length c.directory
        rw [← start] at patched
        rw [put]
        obtain ⟨⟨tail, slots, behind⟩, fat, sectors, others⟩ := ih (c := ⟨_, c.current, c.startIndex + 32⟩) nodup follows
          (k := k + 1) (by simp only; omega) more lengths' (by omega)
        refine ⟨⟨tail, slots.trans ?_, ?_⟩, fat, sectors, others⟩
        · rw [patched, List.append_assoc (slotsFrom c.directory 0 k), List.singleton_append]
        · rwa [List.length_cons, Nat.add_comm entries.length, ← Nat.add_assoc]
      · -- the buffer is full
        have put : d.putEntry c entry = (d.setData c.current (patch c.directory c.startIndex entry),
            ⟨patch c.directory c.startIndex entry, d.fat.getFatEntry c.current, 0⟩) := if_pos (by omega)
        have last : k + 1 = d.slotsPerCluster := by omega
        have patched := slotsFrom_patch (k := k) length c.directory
        rw [← start, last] at patched
        rw [put]
        cases cs with
        | nil =>
            obtain rfl : entries = [] := List.length_eq_zero_iff.mp (by simp at room; omega)
            refine ⟨⟨[], ?_, ?_⟩, rfl, rfl, fun x other => Function.update_of_ne (List.ne_of_not_mem_cons other) _ _⟩
            · rw [dirSlots_cons, dirSlots]
              exact congrArg (· ++ []) ((clusterSlots_setData_self ..).trans patched)
            · rw [Behind, List.length_singleton, last, Nat.mod_self, if_pos rfl, dirSlots_cons,
                List.drop_left' (length_clusterSlots d _)]
              rfl
        | cons c₂ cs =>
            obtain ⟨next, later⟩ := List.isChain_cons_cons.mp follows
            obtain ⟨fresh, nodup'⟩ := List.nodup_cons.mp nodup
            rw [next]
            obtain ⟨⟨tail, slots, behind⟩, fat, sectors, others⟩ := ih (c := ⟨_, c₂, 0⟩)
              (d := d.setData c.current (patch c.directory c.startIndex entry)) nodup' later (k := 0) rfl
              (Nat.zero_lt_of_lt inside) lengths' (by
                rw [List.length_cons, Nat.mul_succ] at room
                rw [slotsPerCluster_setData]
                omega)
            refine ⟨⟨tail, ?_, ?_⟩, fat, sectors, fun x other => ?_⟩
            · have first := clusterSlots_congr (others c.current fresh) sectors
              rw [clusterSlots_setData_self, patched] at first
              rw [dirSlots_cons, first, slots]
              simp [slotsFrom]
            · rw [List.length_cons, Nat.add_comm entries.length, ← Nat.add_assoc, last]
              rw [Nat.zero_add] at behind
              exact behind.cons fresh
            · rw [others x (List.not_mem_of_not_mem_cons other)]
              exact Function.update_of_ne (List.ne_of_not_mem_cons other) _ _

end Disk

end Kerosene.Fat32
