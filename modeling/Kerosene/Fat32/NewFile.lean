import Kerosene.Fat32.NodeCreate

/-!
# The file that `fat32_node_create` makes

Where its clusters and its directory entry are, and what `fat32_update_entry` does to the entry.
-/

namespace Kerosene.Fat32
open Lib Libc
open Ramfs (Name filenameLimit)

namespace Disk
variable {d d₁ d₂ d' : Disk} {c : Cursor} {chain chain' : List Nat} {rest : List (List Nat)} {name : Name} {stack : Int → UInt8}
  {fuel k count p : Nat} {entries slots : List (List UInt8)} {entry : List UInt8}

/-! ## The chain of the directory -/

/-- A cluster in the middle of the directory that is linked to new ones leaves the clusters behind it as a chain that
nothing leads to. -/
theorem expandChain_partition {front back : List Nat} {x n new : Nat} (volume : d.fat.Volume)
    (partition : d.fat.Partition ((front ++ x :: back) :: rest)) (pos : 1 ≤ n) (expanded : d.expandChain x n = some (new, d')) :
    d'.fat.Partition ((front ++ x :: d.fat.available.take n) :: back :: rest) := by
  obtain ⟨g, rfl, -, grows, -, -⟩ := expandChain_grows volume pos (partition.member (by simp)) expanded
  exact grows.split partition

theorem FreeSlot.partition (volume : d.fat.Volume) (partition : d.fat.Partition (chain :: rest)) (slot : d.FreeSlot chain d₂ c) :
    ∃ front back lost, d₂.fat.Partition ((front ++ c.current :: back) :: (lost ++ rest)) ∧
      (front ++ c.current :: back).head? = chain.head? := by
  cases slot with
  | @inside front back x k at_ small used free => exact ⟨front, back, [], at_ ▸ partition, by rw [at_]⟩
  | @behind last new d₂ at_ used expanded nonzero =>
      obtain ⟨init, rfl⟩ := List.getLast?_eq_some_iff.mp at_
      have grown := expandChain_partition volume partition le_rfl expanded
      obtain ⟨g, -, head, -, -, length⟩ := expandChain_grows volume le_rfl (partition.member (by simp)) expanded
      obtain ⟨x, one⟩ := List.length_eq_one_iff.mp length
      rw [one] at grown head
      cases head
      rw [List.append_cons] at grown
      exact ⟨init ++ [last], [], [[]], grown, by cases init <;> rfl⟩

theorem makeRoom_partition (some : 0 < d.slotsPerCluster) (volume : d.fat.Volume) (partition : d.fat.Partition (chain :: rest))
    (nonempty : chain ≠ []) (on : d.DirChain chain)
    (done : d.makeRoom fuel (chain.getD 0 0) name stack = .some (.success, d₁, c)) :
    ∃ lost, d₁.fat.Partition (d.grownChain chain name :: (lost ++ rest)) := by
  have inUse : ∀ c ∈ chain, d.fat.InUse c := fun c member => partition.member member
  have room := makeRoom_room some volume inUse nonempty on done
  have below : ∀ x ∈ d.grownChain chain name, x < fatBadCluster := grownChain_below volume inUse
  have head : (d.grownChain chain name).head? = chain.head? := by
    obtain ⟨c₀, cs, rfl⟩ := List.exists_cons_of_ne_nil nonempty
    rw [grownChain]
    split_ifs <;> rfl
  -- a partition that has a chain from the same cluster has the chain that was found
  have same : ∀ dir lost, d₁.fat.Partition (dir :: lost) → dir.head? = chain.head? → dir = d.grownChain chain name :=
    fun dir lost part first => by
      have seg := part.links _ List.mem_cons_self
      rw [first, ← head] at seg
      exact seg.unique ((dirChain_seg below).mp room.on)
  obtain ⟨d₂, found, rest'⟩ := makeRoom_steps done
  have slot : d.FreeSlot chain d₂ c := by
    obtain ⟨c₀, cs, rfl⟩ := List.exists_cons_of_ne_nil nonempty
    exact findSpace_success some on found
  obtain ⟨g, m, rfl, expands, -, -, -⟩ := slot.takes volume inUse
  obtain ⟨front, back, lost, part, first⟩ := slot.partition volume partition
  rcases rest' with ⟨-, rfl⟩ | ⟨more, new, expanded⟩
  · exact ⟨lost, same _ _ part first ▸ part⟩
  · have grown := expandChain_partition (expands.volume volume) part more expanded
    have first' : (front ++ c.current :: (d.withFat g).fat.available.take ((d.withFat g).newClusterCount (lfnEntryCount name)
        c.startIndex)).head? = chain.head? := by
      rw [← first]
      cases front <;> rfl
    exact ⟨back :: lost, same _ _ grown first' ▸ grown⟩

/-! ## The place of the entry -/

theorem putAll_cursor {cs : List Nat} (follows : (c.current :: cs).IsChain fun a b => d.fat.getFatEntry a = b)
    (start : c.startIndex = 32 * k) (inside : k < d.slotsPerCluster)
    (room : k + entries.length < d.slotsPerCluster * (cs.length + 1)) :
    (c.current :: cs)[(k + entries.length) / d.slotsPerCluster]? = some (putAll entries d c).2.current ∧
      (putAll entries d c).2.startIndex = 32 * ((k + entries.length) % d.slotsPerCluster) := by
  induction entries generalizing d c cs k with
  | nil =>
      rw [List.length_nil, Nat.add_zero, Nat.div_eq_of_lt inside, Nat.mod_eq_of_lt inside]
      exact ⟨rfl, start⟩
  | cons entry entries ih =>
      have size := d.clusterSize_eq
      rw [List.length_cons] at room ⊢
      rw [putAll, ← Nat.add_assoc, Nat.add_right_comm]
      by_cases more : k + 1 < d.slotsPerCluster
      · have put : d.putEntry c entry = (d, ⟨patch c.directory c.startIndex entry, c.current, c.startIndex + 32⟩) :=
          if_neg (by omega)
        rw [put]
        exact ih (c := ⟨_, c.current, c.startIndex + 32⟩) follows (by simp only; omega) more (by omega)
      · have put : d.putEntry c entry = (d.setData c.current (patch c.directory c.startIndex entry),
            ⟨patch c.directory c.startIndex entry, d.fat.getFatEntry c.current, 0⟩) := if_pos (by omega)
        have last : k + 1 = d.slotsPerCluster := by omega
        rw [put, last, Nat.add_div_left _ (by omega), Nat.add_mod_left]
        cases cs with
        | nil =>
            rw [List.length_nil] at room
            omega
        | cons c₂ cs =>
            obtain ⟨next, later⟩ := List.isChain_cons_cons.mp follows
            rw [next, List.getElem?_cons_succ]
            have rest := ih (c := ⟨patch c.directory c.startIndex entry, c₂, 0⟩) (k := 0)
              (d := d.setData c.current (patch c.directory c.startIndex entry)) later rfl (by rw [slotsPerCluster_setData]; omega) (by
                rw [List.length_cons, Nat.mul_succ] at room
                rw [slotsPerCluster_setData]
                omega)
            rwa [slotsPerCluster_setData, Nat.zero_add] at rest

theorem slotAt_finish (d : Disk) (c : Cursor) (length : entry.length = 32) :
    slotAt (((d.putEntry c entry).1.finish (d.putEntry c entry).2).data c.current) c.startIndex = entry := by
  unfold putEntry
  dsimp only
  split_ifs with full
  · rw [finish, if_neg (not_not.mpr rfl), data_setData]
    exact slotAt_patch_self length _ _
  · rw [finish, if_pos (Nat.succ_ne_zero _), data_setData]
    refine (slotAt_congr fun j _ before => ?_).trans (slotAt_patch_self length c.directory c.startIndex)
    exact if_neg (by dsimp only; omega)

theorem Room.place (sized : d.Sized) (room : d.Room d₁ c count chain chain' p) (below : ∀ x ∈ chain', x < fatBadCluster)
    (few : count ≤ 20) (length : entries.length = count) :
    ((putAll entries d₁ c).2.current ∈ chain' ↔ p + (count + 1) ≤ d.slotsPerCluster * chain'.length) ∧
      (putAll entries d₁ c).2.startIndex + 32 ≤ d.clusterSize := by
  have perCluster : d₁.slotsPerCluster = d.slotsPerCluster := by
    rw [slotsPerCluster_eq, slotsPerCluster_eq, room.sectors]
  have size := d.clusterSize_eq
  have some := sized.slots
  have inside : ∀ n, 32 * (n % d.slotsPerCluster) + 32 ≤ d.clusterSize := fun n => by
    have := Nat.mod_lt n (show 0 < d.slotsPerCluster by omega)
    omega
  obtain ⟨front, back, k, whole, small, start, rfl, -, wide⟩ := room.position
  by_cases fits : d.slotsPerCluster * front.length + k + (count + 1) ≤ d.slotsPerCluster * chain'.length
  · have here := room.on.drop front.length
    rw [whole, List.drop_left] at here
    have row := fits
    rw [whole, List.length_append, List.length_cons, Nat.mul_add] at row
    obtain ⟨place, index⟩ := putAll_cursor (here.linked.imp fun _ _ next => next.1) start (by omega)
      (show k + entries.length < d₁.slotsPerCluster * (back.length + 1) by rw [perCluster]; omega)
    rw [index, perCluster]
    refine ⟨iff_of_true ?_ fits, inside _⟩
    rw [whole]
    exact List.mem_append_right _ (List.mem_of_getElem? place)
  · let blanks := List.replicate (count + 1) (List.replicate 32 (0 : UInt8))
    have lengths : ∀ slot ∈ blanks, slot.length = 32 := fun slot member => by
      rw [List.eq_of_mem_replicate member, List.length_replicate]
    obtain ⟨front', k', whole', small', same, beyond, -, ends, -⟩ := room.overflow_written sized below few lengths
      List.length_replicate (by rw [List.length_replicate]; exact fits)
    obtain rfl : k = k' := by
      have mod := congrArg (· % d.slotsPerCluster) same
      simpa only [Nat.mul_add_mod, Nat.mod_eq_of_lt small, Nat.mod_eq_of_lt small'] using mod
    -- a cluster of one sector gets as many new ones as it needs
    have large : 32 ≤ d.slotsPerCluster := by
      by_contra few'
      have one : d.sectorsPerCluster = 1 := by
        have := d.slotsPerCluster_eq
        have := sized.sectors
        omega
      have enough := fits_of_new sized small few wide (.inr one)
      rw [whole, List.length_append, List.length_cons, Nat.mul_add, Nat.mul_succ] at fits
      omega
    have follows : [c.current, d₁.fat.getFatEntry c.current].IsChain fun a b => d₁.fat.getFatEntry a = b :=
      List.isChain_cons_cons.mpr ⟨rfl, .singleton _⟩
    obtain ⟨place, index⟩ := putAll_cursor follows start (by omega)
      (show k + entries.length < d₁.slotsPerCluster * 2 by rw [perCluster]; omega)
    have second : (k + entries.length) / d₁.slotsPerCluster = 1 :=
      Nat.div_eq_of_lt_le (by rw [perCluster]; omega) (by rw [perCluster]; omega)
    rw [second] at place
    have last : d₁.fat.getFatEntry c.current = (putAll entries d₁ c).2.current := Option.some.inj place
    rw [index, perCluster, ← last]
    refine ⟨iff_of_false (fun member => ?_) fits, inside _⟩
    have := below _ member
    simp only [fatBadCluster, fatEoc] at this ends
    omega

variable {parent : Nat} {startCluster size : UInt32} {attr : UInt8} {clock : Clock} {newNode node : FsNode}

theorem writeEntries_slot {old : Bytes} (written : d₁.writeEntries c name startCluster attr size clock old = some (d', node)) :
    ∃ dir reserved lfn, shortEntry name startCluster attr size clock reserved = some dir ∧
      slotAt (d'.data node.parentCluster) node.parentClusterIndex = dir.bytes ∧ lfn.length = lfnEntryCount name ∧
      node.parentCluster = (putAll lfn d₁ c).2.current ∧ node.parentClusterIndex = (putAll lfn d₁ c).2.startIndex := by
  rw [writeEntries, putLfnEntries_eq] at written
  obtain ⟨dir, made, written⟩ := Option.bind_eq_some_iff.mp written
  cases written
  exact ⟨dir, _, _, made, slotAt_finish _ _ (FatDirectoryEntry.length_bytes dir), length_lfnSlots .., rfl, rfl⟩

/-! ## `fat32_node_create` -/

/-- All entries of `name` lie in the clusters that the directory has or gets. -/
def EntryFits (d : Disk) (chain : List Nat) (name : Name) : Prop :=
  d.firstFree chain + (lfnEntryCount name + 1) ≤ d.slotsPerCluster * (d.grownChain chain name).length

instance (d : Disk) (chain : List Nat) (name : Name) : Decidable (d.EntryFits chain name) := Nat.decLe ..

-- the entry that a node was made from
def entryOf (d : Disk) (node : FsNode) : FatDirectoryEntry :=
  .ofBytes (slotAt (d.data node.parentCluster) node.parentClusterIndex)

/-- The entry of `node` designates its first cluster and has its size. -/
structure Entered (d : Disk) (node : FsNode) (dir : List Nat) : Prop where
  place : node.parentCluster ∈ dir
  startCluster : startClusterOf (d.entryOf node) = node.startCluster
  size : (d.entryOf node).size = node.size

/-- A new file of one cluster, in the directory that was on `chain`. -/
structure NewFile (d d' : Disk) (chain dir : List Nat) (name : Name) (node : FsNode) : Prop where
  partition : ∀ rest, d.fat.Partition (chain :: rest) → ∃ lost, d'.fat.Partition ([node.startCluster.toNat] :: dir :: (lost ++ rest))
  head : dir.head? = chain.head?
  volume : d'.fat.Volume
  sectors : d'.sectorsPerCluster = d.sectorsPerCluster
  available : d'.fat.available = d.fat.available.drop (1 + d.growth chain name)
  size : node.size = 0
  startCluster : startClusterOf (d'.entryOf node) = node.startCluster
  place : node.parentCluster ∈ dir ↔ d.EntryFits chain name
  index : node.parentClusterIndex + 32 ≤ d.clusterSize

theorem Stays.grownChain_length (stays : d.Stays d₁ chain) (room : d.growth chain name ≤ d.fat.available.length)
    (room' : d.growth chain name ≤ d₁.fat.available.length) :
    (d₁.grownChain chain name).length = (d.grownChain chain name).length := by
  have size : d₁.clusterSize = d.clusterSize := by rw [clusterSize, clusterSize, stays.sectors]
  have count : ∀ n i, d₁.newClusterCount n i = d.newClusterCount n i := fun n i => by
    rw [newClusterCount, newClusterCount, estimatedNewClusterCount, estimatedNewClusterCount, size]
  rw [Disk.growth] at room room'
  rw [grownChain, grownChain, stays.firstFree, stays.perCluster, count]
  split_ifs at room room' ⊢ with full none
  · rw [List.length_append, List.length_append, List.length_take_of_le room, List.length_take_of_le room']
  · rfl
  · rw [List.length_append, List.length_append, List.length_take_of_le room, List.length_take_of_le room']

theorem addEntry_place (sized : d.Sized) (volume : d.fat.Volume) (partition : d.fat.Partition (chain :: rest))
    (nonempty : chain ≠ []) (short : name.length < filenameLimit)
    (added : d.fat32AddEntry fuel (chain.getD 0 0) name startCluster attr size newNode clock stack = some (.success, d', node)) :
    (∃ lost, d'.fat.Partition (d.grownChain chain name :: (lost ++ rest))) ∧
      startClusterOf (d'.entryOf node) = startCluster ∧ (d'.entryOf node).size = size ∧
      (node.parentCluster ∈ d.grownChain chain name ↔ d.EntryFits chain name) ∧ node.parentClusterIndex + 32 ≤ d.clusterSize := by
  have inUse : ∀ c ∈ chain, d.fat.InUse c := fun c member => partition.member member
  have on : d.DirChain chain :=
    (dirChain_seg fun c member => volume.below (inUse c member).data).mpr (partition.links _ List.mem_cons_self)
  have slots := sized.slots
  obtain ⟨d₁, c, done, written⟩ := addEntry_steps added
  obtain ⟨dir, reserved, lfn, made, slot, length, current, index⟩ := writeEntries_slot written
  obtain ⟨dir', -, -, rfl⟩ := writeEntries_eq written
  have room := makeRoom_room (by omega) volume inUse nonempty on done
  obtain ⟨place, inside⟩ := room.place sized (grownChain_below volume inUse) (lfnEntryCount_le short) length
  obtain ⟨-, -, sameSize, -, -⟩ := shortEntry_name made
  obtain ⟨-, -, first⟩ := shortEntry_ofBytes made
  rw [entryOf, slot, FatDirectoryEntry.ofBytes_bytes, (putAll_fat ..).1]
  exact ⟨makeRoom_partition (by omega) volume partition nonempty on done, first, sameSize, by rw [current]; exact place,
    by rw [index]; exact inside⟩

variable {flags : BitVec 32} {new : Scratch}

theorem nodeCreate_newFile (flags : BitVec 32) (sized : d.Sized) (volume : d.fat.Volume) (partition : d.fat.Partition (chain :: rest))
    (nonempty : chain ≠ []) (enough : chain.length < fuel) (short : name.length < filenameLimit)
    (absent : ¬ d.Finds chain name new.entryName) (room : 1 + d.growth chain name ≤ d.fat.available.length) :
    ∃ d' node dir, d.fat32NodeCreate fuel (chain.getD 0 0) name flags new = some (.success, d', node) ∧
      node.flags = toFsNodeFlags (toFatAttr flags) ∧ d.NewFile d' chain dir name node := by
  have inUse : ∀ c ∈ chain, d.fat.InUse c := fun c member => partition.member member
  have on : d.DirChain chain :=
    (dirChain_seg fun c member => volume.below (inUse c member).data).mpr (partition.links _ List.mem_cons_self)
  have some : d.fat.available ≠ [] := by
    rintro none
    rw [none, List.length_nil] at room
    omega
  obtain ⟨start, g, allocated, nonzero⟩ := allocate_ends volume some
  obtain ⟨next, first, -, -, left, -⟩ := allocate_first volume allocated
  obtain ⟨expands, head, takes⟩ := Fat.allocate_expands volume le_rfl allocated
  have taken : d.fat.available.take 1 = [start] := by rw [first]; rfl
  rw [taken] at takes
  have ready := ready_allocate volume inUse allocated
  have stays := ready.stays
  have sized' := sized.congr stays.sectors
  have volume' := expands.volume volume
  have growth : (d.withFat g).growth chain name = d.growth chain name := stays.growth
  have fewer : (d.withFat g).fat.available.length = d.fat.available.length - 1 := by
    rw [show (d.withFat g).fat.available = next from left, first]
    rfl
  have moves := takes.moves volume
  have parts : ∀ rest, d.fat.Partition (chain :: rest) → (d.withFat g).fat.Partition (chain :: [start] :: rest) := fun rest part =>
    (part.consNil.replace moves.total moves.same moves.free moves.links moves.members).perm (List.Perm.swap ..)
  have inUse' : ∀ c ∈ chain, (d.withFat g).fat.InUse c := fun c member => (parts rest partition).member member
  obtain ⟨d', node, added⟩ := addEntry_succeeds sized' volume' inUse' nonempty (on.kept ready.entries) enough
    (fun finds => absent (stays.finds.mp finds)) (by rw [growth]; omega) (.ofNat start) (toFatAttr flags) 0 new.node new.clock
  have enters := addEntry_enters sized' volume' inUse' nonempty (on.kept ready.entries) short added
  obtain ⟨-, sameFlags, size, sameStart⟩ := addEntry_node added
  obtain ⟨-, entryStart, entrySize, place, index⟩ := addEntry_place sized' volume' (parts rest partition) nonempty short added
  have number : (UInt32.ofNat start).toNat = start := by
    have := volume.below (takes.free start List.mem_cons_self).data
    simp only [fatBadCluster] at this
    exact UInt32.toNat_ofNat_of_lt' (this.trans (by decide))
  refine ⟨d', node, (d.withFat g).grownChain chain name, (nodeCreate_of_steps volume allocated).trans added, sameFlags,
    ⟨fun rest part => ?_, ?_, enters.fat.volume volume', enters.sectors, ?_, size, entryStart.trans sameStart.symm, ?_, index⟩⟩
  · obtain ⟨⟨lost, grown⟩, -⟩ := addEntry_place sized' volume' (parts rest part) nonempty short added
    refine ⟨lost, grown.perm ?_⟩
    rw [sameStart, number]
    exact (List.Perm.cons _ List.perm_middle).trans (List.Perm.swap ..)
  · obtain ⟨c₀, cs, rfl⟩ := List.exists_cons_of_ne_nil nonempty
    rw [grownChain]
    split_ifs <;> rfl
  · rw [enters.fat.available, growth, ← List.drop_drop]
    exact congrArg (List.drop _) expands.available
  · rw [place, EntryFits, EntryFits, stays.grownChain_length (by omega) (by omega), stays.firstFree, stays.perCluster]

/-! ## `fat32_update_entry` -/

def fat32UpdateEntry (d : Disk) (node : FsNode) : Option Disk := do
  let accessed := parseTimestamp (← gmtime node.accessedTimestamp)
  let modified := parseTimestamp (← gmtime node.modifiedTimestamp)
  let dir := { d.entryOf node with
    lastAccessDate := accessed.1
    lastModTime := modified.2
    lastModDate := modified.1
    attr := toFatAttr node.flags
    size := node.size }
  return d.setData node.parentCluster (patch (d.data node.parentCluster) node.parentClusterIndex dir.bytes)

theorem fat32UpdateEntry_spec (d : Disk) (node : FsNode) :
    ∃ bytes, d.fat32UpdateEntry node = some (d.setData node.parentCluster bytes) ∧
      startClusterOf ((d.setData node.parentCluster bytes).entryOf node) = startClusterOf (d.entryOf node) ∧
      ((d.setData node.parentCluster bytes).entryOf node).size = node.size := by
  obtain ⟨accessed, made⟩ := gmtime_ends node.accessedTimestamp
  obtain ⟨modified, made'⟩ := gmtime_ends node.modifiedTimestamp
  rw [fat32UpdateEntry, made, made']
  refine ⟨_, rfl, ?_⟩
  rw [entryOf, data_setData, slotAt_patch_self (FatDirectoryEntry.length_bytes _), FatDirectoryEntry.ofBytes_bytes]
  exact ⟨rfl, rfl⟩

end Disk
end Kerosene.Fat32
