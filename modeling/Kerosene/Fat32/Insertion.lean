import Kerosene.Fat32.NewClusters
import Kerosene.Fat32.WrittenNames

/-!
# What `fat32_add_entry` adds to the listing
-/

namespace Kerosene.Fat32
open Lib
open Ramfs (Name filenameLimit)
open Ramfs.Heap (dot dotdot)
variable {name : Name} {attr : UInt8} {d d' : Disk} {chain chain' : List Nat} {items : List Item}

/-! ## The items -/

theorem Item.Valid.used {item : Item} (valid : item.Valid) : Used item.slots := by
  intro slot member
  cases valid with
  | hole deleted =>
      rw [List.mem_singleton.mp member, deleted]
      decide
  | file isShort named =>
      rcases List.mem_append.mp member with long | short
      · cases named with
        | short => cases long
        | long group => exact (group.used slot long).1
      · rw [List.mem_singleton.mp short]
        exact isShort.used

theorem used_slotsOf (valid : ∀ item ∈ items, item.Valid) : Used (slotsOf items) := by
  intro slot member
  obtain ⟨item, inside, here⟩ := List.mem_flatMap.mp member
  exact (valid item inside).used slot here

namespace Disk

theorem Directory.firstFree (dir : d.Directory chain items) :
    d.firstFree chain = (slotsOf items).length ∧ (d.dirSlots chain).take (d.firstFree chain) = slotsOf items := by
  obtain ⟨tail, slots, stops⟩ := dir.slots
  have p := firstFree_eq slots (used_slotsOf dir.valid) stops
  exact ⟨p, by rw [p, slots, List.take_left]⟩

theorem filesFrom_congr {d d' : Disk} {p n : Nat} (perCluster : d'.slotsPerCluster = d.slotsPerCluster)
    (same : ∀ q < n, d.clusterOf chain' q = d.clusterOf chain q) (inside : p + (slotsOf items).length ≤ n) (rootdirCluster : UInt32) :
    d'.filesFrom chain' rootdirCluster p items = d.filesFrom chain rootdirCluster p items := by
  induction items generalizing p with
  | nil => rfl
  | cons item items ih =>
      rw [slotsOf_cons, List.length_append] at inside
      cases item with
      | hole slot =>
          rw [Item.slots, List.length_singleton] at inside
          rw [filesFrom, filesFrom]
          exact ih (by omega)
      | file name long short =>
          rw [Item.slots, List.length_append, List.length_singleton] at inside
          have cluster : d'.clusterOf chain' (p + long.length) = d.clusterOf chain (p + long.length) := by
            rw [clusterOf, perCluster, ← clusterOf, same _ (by omega)]
          have index : d'.indexOf (p + long.length) = d.indexOf (p + long.length) := by
            rw [indexOf, perCluster, indexOf]
          rw [filesFrom, filesFrom]
          rw [cluster, index, ih (by omega)]

theorem filesFrom_append {p : Nat} (l r : List Item) (d : Disk) (chain : List Nat) (rootdirCluster : UInt32) :
    d.filesFrom chain rootdirCluster p (l ++ r) =
      d.filesFrom chain rootdirCluster p l ++ d.filesFrom chain rootdirCluster (p + (slotsOf l).length) r := by
  induction l generalizing p with
  | nil => rfl
  | cons item l ih =>
      rw [slotsOf_cons, List.length_append]
      cases item with
      | hole slot =>
          rw [List.cons_append, filesFrom, filesFrom, ih, Item.slots, List.length_singleton, Nat.add_assoc]
      | file name long short =>
          have place : p + (long ++ [short]).length + (slotsOf l).length = p + long.length + 1 + (slotsOf l).length := by
            rw [List.length_append, List.length_singleton]
            omega
          rw [List.cons_append, filesFrom, filesFrom, ih, Item.slots, ← Nat.add_assoc, place]
          rfl

theorem grownChain_clusterOf {q : Nat} (before : q < d.firstFree chain) :
    d.clusterOf (d.grownChain chain name) q = d.clusterOf chain q := by
  have row : q / d.slotsPerCluster ≤ d.firstFree chain / d.slotsPerCluster := Nat.div_le_div_right before.le
  have inside := d.firstFree_le chain
  have rowInside : q / d.slotsPerCluster < chain.length := Nat.div_lt_of_lt_mul (by omega)
  rw [clusterOf, clusterOf, grownChain, List.getD_eq_getElem?_getD, List.getD_eq_getElem?_getD]
  split_ifs with full none
  · rw [List.getElem?_append_left rowInside]
  · rfl
  · rw [List.getElem?_append_left (by rw [List.length_take]; omega), List.getElem?_take_of_lt (by omega)]

theorem grownChain_head (nonempty : chain ≠ []) : (d.grownChain chain name).getD 0 0 = chain.getD 0 0 := by
  obtain ⟨c, cs, rfl⟩ := List.exists_cons_of_ne_nil nonempty
  rw [grownChain]
  split_ifs <;> rfl

end Disk

/-! ## The new item -/

variable {dir : FatDirectoryEntry} {startCluster size : UInt32} {reserved : UInt8} {clock : Clock}

/-- The name that the entries written for `name` have. -/
def newName (name : Name) (dir : FatDirectoryEntry) : Name := if lfnEntryCount name = 0 then sfnText dir else name

def newItem (name : Name) (attr : UInt8) (dir : FatDirectoryEntry) : Item :=
  .file (newName name dir)
    (lfnSlots name (lfnEntryCount name) (genChecksum (shortName name (attr &&& fatAttrDirectory ≠ 0))) (lfnEntryCount name))
    dir.bytes

theorem newItem_slots (name : Name) (attr : UInt8) (dir : FatDirectoryEntry) : (newItem name attr dir).slots = newSlots name attr dir :=
  rfl

theorem upper_nonzero {b : UInt8} (nonzero : b ≠ 0) : upper b ≠ 0 := by
  grind [upper, isLower]

theorem shortName_nonzero {isDir : Bool} (nonzero : ∀ b ∈ name, b ≠ 0) : ∀ c ∈ shortName name isDir, c ≠ 0 := by
  intro c member
  rcases mem_shortName member with ⟨b, inside, rfl⟩ | rfl | rfl | rfl
  · exact upper_nonzero (nonzero b inside)
  all_goals decide

theorem newItem_short_iff (nonzero : ∀ b ∈ name, b ≠ 0)
    (written : shortEntry name startCluster attr size clock reserved = some dir) :
    Item.Short dir.bytes ↔ (shortName name (attr &&& fatAttrDirectory ≠ 0)).getD 0 0 ≠ 0xe5 ∧ attr ≠ 0x0f := by
  obtain ⟨head, attrs, -⟩ := shortEntry_ofBytes written
  have length := length_shortName name (attr &&& fatAttrDirectory ≠ 0)
  have used : dir.bytes.getD 0 0 ≠ 0x00 := by
    rw [head, List.getD_eq_getElem?_getD, List.getElem?_eq_getElem (by omega)]
    exact shortName_nonzero nonzero _ (List.getElem_mem _)
  rw [← head, ← attrs]
  exact ⟨fun short => ⟨short.kept, short.attr⟩, fun h => ⟨used, h.1, h.2⟩⟩

theorem sfnText_nonzero (nonzero : ∀ b ∈ name, b ≠ 0)
    (written : shortEntry name startCluster attr size clock reserved = some dir) : ∀ c ∈ sfnText dir, c ≠ 0 := by
  have names := (shortEntry_name written).1
  have stored : ∀ c ∈ dir.name.toList, c ≠ 0 := by
    rw [names]
    exact shortName_nonzero nonzero
  have base : ∀ c ∈ (dir.name.toList.take 8).takeWhile (· ≠ 0x20), c ≠ 0 := fun c member =>
    stored c (List.mem_of_mem_take ((List.takeWhile_prefix _).subset member))
  have ext : ∀ c ∈ (dir.name.toList.drop 8).takeWhile (· ≠ 0x20), c ≠ 0 := fun c member =>
    stored c (List.mem_of_mem_drop ((List.takeWhile_prefix _).subset member))
  intro c member
  rw [sfnText] at member
  split_ifs at member
  · exact base c member
  · rcases List.mem_append.mp member with front | back
    · exact base c front
    · rcases List.mem_cons.mp back with rfl | last
      · decide
      · exact ext c last

theorem lfnEntryCount_le (short : name.length < filenameLimit) : lfnEntryCount name ≤ 20 := by
  have small : name.length < 256 := short
  rw [lfnEntryCount]
  split_ifs <;> omega

theorem newItem_valid (nonzero : ∀ b ∈ name, b ≠ 0) (short : name.length < filenameLimit)
    (written : shortEntry name startCluster attr size clock reserved = some dir) (isShort : Item.Short dir.bytes) :
    (newItem name attr dir).Valid := by
  have ofBytes := dir.ofBytes_bytes
  refine .file isShort ?_
  by_cases none : lfnEntryCount name = 0
  · have named := @Item.Named.short dir.bytes (by rw [ofBytes]; exact sfnText_nonzero nonzero written)
    rw [ofBytes] at named
    rwa [newName, if_pos none, none]
  · have count : lfnEntryCount name = pieceCount name := by
      rw [lfnEntryCount] at none ⊢
      split_ifs at none ⊢
      · exact absurd rfl none
      · rfl
    have nonempty : name ≠ [] := by
      rintro rfl
      exact none (by rw [count]; rfl)
    rw [newName, if_neg none, count]
    exact .long (lfnSlots_group nonempty short nonzero _)

theorem lfnSlots_attr {count n : Nat} {checksum : UInt8} {slot : List UInt8} (member : slot ∈ lfnSlots name count checksum n) :
    slot.getD 11 0 = 0x0f := by
  obtain ⟨k, inside, rfl⟩ := List.getElem_of_mem member
  rw [(lfnSlots_get (List.getElem?_eq_getElem inside)).2, ← FatLfnEntry.attr_ofBytes, FatLfnEntry.ofBytes_bytes]
  rfl

theorem quiet_of_lfn {slots : List (List UInt8)} (attrs : ∀ slot ∈ slots, slot.getD 11 0 = 0x0f) : Quiet slots :=
  fun slot member => .inr (attrs slot ((List.takeWhile_prefix _).subset member))

/-! ## Clusters that are too few -/

namespace Disk
variable {d₁ : Disk} {c : Cursor} {p count : Nat} {slots : List (List UInt8)}

theorem fits_of_new {k new : Nat} (sized : d.Sized) (small : k < d.slotsPerCluster) (few : count ≤ 20)
    (wide : d.newClusterCount count (32 * k) ≤ new) (more : 0 < new ∨ d.sectorsPerCluster = 1) :
    count + 1 ≤ d.slotsPerCluster - k + d.slotsPerCluster * new := by
  have slots := d.slotsPerCluster_eq
  have sectors := sized.sectors
  rcases Nat.lt_or_ge 1 d.sectorsPerCluster with large | one
  · have some : 0 < new := more.resolve_right (by omega)
    have := Nat.mul_le_mul_left d.slotsPerCluster (show 1 ≤ new from some)
    omega
  · have perCluster : d.slotsPerCluster = 16 := by omega
    rw [newClusterCount_eq sectors sized.byte small few, perCluster, if_pos (by omega)] at wide
    rw [perCluster] at small ⊢
    omega

/-- What does not fit: the last cluster of the directory is followed by the number that ends the chain, and what is left
over goes to the cluster of that number. -/
theorem Room.overflow_written (sized : d.Sized) (room : d.Room d₁ c count chain chain' p) (below : ∀ x ∈ chain', x < fatBadCluster)
    (few : count ≤ 20) (lengths : ∀ slot ∈ slots, slot.length = 32) (length : slots.length = count + 1)
    (beyond : ¬ p + slots.length ≤ d.slotsPerCluster * chain'.length) :
    ∃ front k, chain' = front ++ [c.current] ∧ k < d.slotsPerCluster ∧ p = d.slotsPerCluster * front.length + k ∧
      d.slotsPerCluster - k ≤ count ∧ d.dirSlots front ++ slotsFrom c.directory 0 k = (d.dirSlots chain).take p ∧
      fatEoc ≤ d₁.fat.getFatEntry c.current ∧
      Written d₁ ((putAll slots d₁ c).1.finish (putAll slots d₁ c).2) c [d₁.fat.getFatEntry c.current] k slots := by
  obtain ⟨front, back, k, rfl, small, start, rfl, before, wide⟩ := room.position
  have perCluster : d₁.slotsPerCluster = d.slotsPerCluster := by
    rw [slotsPerCluster_eq, slotsPerCluster_eq, room.sectors]
  rw [List.length_append, List.length_cons, Nat.mul_add, Nat.mul_succ] at beyond
  have noMore : back = [] ∧ d.sectorsPerCluster ≠ 1 := by
    by_contra some
    refine beyond ?_
    have := fits_of_new sized small few wide (by
      rw [not_and_or, not_not] at some
      exact some.imp List.length_pos_of_ne_nil id)
    omega
  obtain ⟨rfl, large⟩ := noMore
  have sectors := sized.sectors
  have perSector := d.slotsPerCluster_eq
  rw [List.length_nil] at beyond
  have here := room.on.drop front.length
  rw [List.drop_left] at here
  have ends := here.ends c.current rfl
  have fresh : c.current ≠ d₁.fat.getFatEntry c.current := by
    intro same
    have := below c.current (by simp)
    simp only [fatBadCluster, fatEoc] at this ends
    omega
  -- the cluster number that ends the chain is taken for the next cluster
  refine ⟨front, k, rfl, small, rfl, by omega, before, ends, @putAll_written _ _ slots k [d₁.fat.getFatEntry c.current]
    (by simp [fresh]) (List.isChain_cons_cons.mpr ⟨rfl, .singleton _⟩) start (by omega) lengths
    (by rw [perCluster, List.length_singleton]; omega)⟩

theorem Room.overflow (sized : d.Sized) (room : d.Room d₁ c count chain chain' p) (below : ∀ x ∈ chain', x < fatBadCluster)
    (few : count ≤ 20) (lengths : ∀ slot ∈ slots, slot.length = 32) (length : slots.length = count + 1)
    (beyond : ¬ p + slots.length ≤ d.slotsPerCluster * chain'.length) :
    let d' := (putAll slots d₁ c).1.finish (putAll slots d₁ c).2
    d'.DirChain chain' ∧ d'.sectorsPerCluster = d.sectorsPerCluster ∧
      ∃ n ≤ count, d'.dirSlots chain' = (d.dirSlots chain).take p ++ slots.take n := by
  obtain ⟨front, k, rfl, small, rfl, left, before, ends, ⟨tail, slots', -⟩, fat, same, others⟩ :=
    room.overflow_written sized below few lengths length beyond
  have perCluster : d₁.slotsPerCluster = d.slotsPerCluster := by
    rw [slotsPerCluster_eq, slotsPerCluster_eq, room.sectors]
  have sameSlots : ∀ chain, d₁.dirSlots chain = d.dirSlots chain := fun chain =>
    dirSlots_congr (fun c _ => by rw [room.data]) room.sectors
  have kept : ((putAll slots d₁ c).1.finish (putAll slots d₁ c).2).dirSlots front = d.dirSlots front := by
    rw [← sameSlots]
    refine dirSlots_congr (fun x member => others x ?_) same
    have notCurrent : x ≠ c.current := by
      rintro rfl
      exact (List.nodup_append'.mp room.on.nodup).2.2 member List.mem_cons_self
    have notLast : x ≠ d₁.fat.getFatEntry c.current := by
      have := below x (by simp [member])
      simp only [fatBadCluster, fatEoc] at this ends
      omega
    simp [notCurrent, notLast]
  refine ⟨room.on.congr fat, same.trans room.sectors, d.slotsPerCluster - k, left, ?_⟩
  have firstCluster := congrArg (List.take d.slotsPerCluster) slots'
  have width : (slotsFrom c.directory 0 k).length = k := by rw [slotsFrom, List.length_map, List.length_range]
  have perCluster' : ((putAll slots d₁ c).1.finish (putAll slots d₁ c).2).slotsPerCluster = d.slotsPerCluster := by
    rw [slotsPerCluster_eq, slotsPerCluster_eq, same.trans room.sectors]
  rw [dirSlots_cons, List.take_left' (by rw [length_clusterSlots, perCluster']), List.append_assoc, List.take_append, width,
    List.take_of_length_le (by omega), List.take_append_of_le_length (by omega)] at firstCluster
  rw [dirSlots, List.flatMap_append, ← dirSlots, kept, List.flatMap_singleton, firstCluster, ← before, List.append_assoc]

/-! ## The listing afterwards -/

/-- Where the entry of `name` goes, and what it is listed as. -/
def newListed (d : Disk) (chain : List Nat) (rootdirCluster : UInt32) (name : Name) (dir : FatDirectoryEntry) : Listed :=
  let last := d.firstFree chain + lfnEntryCount name
  Item.listed rootdirCluster (newName name dir) dir (d.clusterOf (d.grownChain chain name) last) (d.indexOf last)

/-- The entry is one that is listed, all slots of the name fit, and when they end with a cluster, what stands in the
clusters behind it is not listed. -/
structure InsertsExactly (d : Disk) (chain : List Nat) (name : Name) (attr : UInt8) : Prop where
  kept : (shortName name (attr &&& fatAttrDirectory ≠ 0)).getD 0 0 ≠ 0xe5
  isEntry : attr ≠ 0x0f
  fits : d.firstFree chain + (lfnEntryCount name + 1) ≤ d.slotsPerCluster * (d.grownChain chain name).length
  quiet : (d.firstFree chain + (lfnEntryCount name + 1)) % d.slotsPerCluster = 0 →
    Quiet ((d.dirSlots (d.grownChain chain name)).drop (d.firstFree chain + (lfnEntryCount name + 1)))

/-- A directory that starts with the items of another one. -/
structure Continues (d d' : Disk) (chain chain' : List Nat) (items : List Item) (rest : List (List UInt8)) : Prop where
  on : d'.DirChain chain'
  slots : d'.dirSlots chain' = slotsOf items ++ rest
  sectors : d'.sectorsPerCluster = d.sectorsPerCluster
  nonempty : chain' ≠ []
  head : chain'.getD 0 0 = chain.getD 0 0
  files : ∀ rootdirCluster, d'.filesFrom chain' rootdirCluster 0 items = d.filesFrom chain rootdirCluster 0 items

variable {rest : List (List UInt8)} {fuel : Nat}

theorem Sized.congr (sized : d.Sized) (sectors : d'.sectorsPerCluster = d.sectorsPerCluster) : d'.Sized :=
  ⟨by rw [sectors]; exact sized.sectors, by rw [sectors]; exact sized.byte⟩

theorem Continues.quiet (more : d.Continues d' chain chain' items rest) (sized : d.Sized) (valid : ∀ item ∈ items, item.Valid)
    (quiet : Quiet rest) (enough : chain'.length ≤ fuel) (enough' : items.length < fuel) (rootdirCluster : UInt32)
    (stale : Nat → Stale) : d'.listDirectory rootdirCluster fuel stale (chain.getD 0 0) =
      some (d.filesFrom chain rootdirCluster 0 items) := by
  rw [← more.files, ← more.head]
  exact iterateAll_items (p := 0) (sized.congr more.sectors) more.on more.nonempty valid more.slots (Nat.zero_le _) quiet enough
    enough' rootdirCluster stale

theorem Continues.loud (more : d.Continues d' chain chain' items rest) (sized : d.Sized) (valid : ∀ item ∈ items, item.Valid)
    (loud : ¬ Quiet rest) (enough : chain'.length ≤ fuel) (enough' : items.length < fuel) (rootdirCluster : UInt32)
    (stale : Nat → Stale) {listing : List Listed} (listed : d'.listDirectory rootdirCluster fuel stale (chain.getD 0 0) = some listing) :
    ∃ entry later i, listing = d.filesFrom chain rootdirCluster 0 items ++ entry :: later ∧
      (∃ slot, rest[i]? = some slot ∧ Item.Short slot) ∧
      entry.parentCluster = d'.clusterOf chain' ((slotsOf items).length + i) ∧
      entry.parentClusterIndex = d'.indexOf ((slotsOf items).length + i) := by
  have sized' := sized.congr more.sectors
  obtain ⟨left, count, run⟩ := iterateAll_prefix (p := 0) sized' more.on more.nonempty valid more.slots (Nat.zero_le _) enough enough'
    rootdirCluster stale
  obtain ⟨left, rfl⟩ := Nat.exists_eq_add_one.mpr (show 0 < left by omega)
  have behind : (d'.dirSlots chain').drop (slotsOf items).length = rest := by rw [more.slots, List.drop_left]
  have inside : (slotsOf items).length ≤ (d'.dirSlots chain').length := by
    rw [more.slots, List.length_append]
    omega
  rw [← more.head, listDirectory] at listed
  have first := listed.symm.trans run
  obtain ⟨i, s, dir, found⟩ := scan_of_not_quiet loud (.start (stale left).entryName)
  obtain ⟨slot, here, isShort⟩ := scanSlots_short found
  rw [Nat.zero_add, iterateAll, iterateDirectory_eq sized' more.on more.nonempty inside enough, behind, found, answer] at first
  obtain ⟨entries, rest, same⟩ := Option.map_eq_some_iff.mp first.symm
  obtain ⟨later, _, made⟩ := Option.map_eq_some_iff.mp rest
  rw [← made, more.files] at same
  exact ⟨_, later, i, same.symm, ⟨slot, here, ⟨isShort.1, isShort.2.1, isShort.2.2⟩⟩, rfl, rfl⟩

theorem DirChain.place_inj (on : d.DirChain chain) {i j : Nat} (insideI : i < d.slotsPerCluster * chain.length)
    (insideJ : j < d.slotsPerCluster * chain.length) (cluster : d.clusterOf chain i = d.clusterOf chain j)
    (index : d.indexOf i = d.indexOf j) : i = j := by
  have rowI : i / d.slotsPerCluster < chain.length := Nat.div_lt_of_lt_mul insideI
  have rowJ : j / d.slotsPerCluster < chain.length := Nat.div_lt_of_lt_mul insideJ
  rw [clusterOf, clusterOf, List.getD_eq_getElem?_getD, List.getD_eq_getElem?_getD, List.getElem?_eq_getElem rowI,
    List.getElem?_eq_getElem rowJ] at cluster
  have row := (List.Nodup.getElem_inj_iff on.nodup).mp cluster
  have col : i % d.slotsPerCluster = j % d.slotsPerCluster := by
    rw [indexOf, indexOf] at index
    omega
  rw [← Nat.div_add_mod i d.slotsPerCluster, row, col, Nat.div_add_mod]

theorem mem_grownChain {x : Nat} (member : x ∈ d.grownChain chain name) : x ∈ chain ∨ x ∈ d.fat.available := by
  rw [grownChain] at member
  split_ifs at member
  · exact (List.mem_append.mp member).imp id List.mem_of_mem_take
  · exact .inl member
  · exact (List.mem_append.mp member).imp List.mem_of_mem_take List.mem_of_mem_take

theorem grownChain_below (volume : d.fat.Volume) (inUse : ∀ c ∈ chain, d.fat.InUse c) :
    ∀ x ∈ d.grownChain chain name, x < fatBadCluster := by
  intro x member
  rcases mem_grownChain member with old | free
  · exact volume.below (inUse x old).data
  · exact volume.below (Fat.available_free volume.hint free).data

theorem Directory.continues (dir : d.Directory chain items) (on : d'.DirChain (d.grownChain chain name))
    (slots : d'.dirSlots (d.grownChain chain name) = (d.dirSlots chain).take (d.firstFree chain) ++ rest)
    (sectors : d'.sectorsPerCluster = d.sectorsPerCluster) :
    d.Continues d' chain (d.grownChain chain name) items rest where
  on := on
  slots := by rw [slots, dir.firstFree.2]
  sectors := sectors
  nonempty := by
    obtain ⟨c, cs, rfl⟩ := List.exists_cons_of_ne_nil dir.nonempty
    rw [grownChain]
    split_ifs <;> simp [dir.nonempty]
  head := grownChain_head dir.nonempty
  files rootdirCluster := by
    have perCluster : d'.slotsPerCluster = d.slotsPerCluster := by rw [slotsPerCluster_eq, slotsPerCluster_eq, sectors]
    refine filesFrom_congr perCluster (n := d.firstFree chain) (fun q before => grownChain_clusterOf before) ?_ rootdirCluster
    rw [dir.firstFree.1, Nat.zero_add]

variable {fuel' : Nat} {newNode node : FsNode} {stack : Int → UInt8}

theorem addEntry_continues (sized : d.Sized) (volume : d.fat.Volume) (inUse : ∀ c ∈ chain, d.fat.InUse c)
    (dir : d.Directory chain items) (short : name.length < filenameLimit)
    (added : d.fat32AddEntry fuel (chain.getD 0 0) name startCluster attr size newNode clock stack = some (.success, d', node)) :
    ∃ entry reserved, shortEntry name startCluster attr size clock reserved = some entry ∧
      if d.firstFree chain + (lfnEntryCount name + 1) ≤ d.slotsPerCluster * (d.grownChain chain name).length then
        ∃ tail, d.Continues d' chain (d.grownChain chain name) items (newSlots name attr entry ++ tail) ∧
          d.Behind (d.grownChain chain name) (d.firstFree chain + (lfnEntryCount name + 1)) tail
      else ∃ n ≤ lfnEntryCount name,
        d.Continues d' chain (d.grownChain chain name) items ((newSlots name attr entry).take n) := by
  have slots := sized.slots
  obtain ⟨d₁, c, done, written⟩ := addEntry_steps added
  obtain ⟨entry, reserved, made, rfl⟩ := writeEntries_eq written
  have room := makeRoom_room (by omega) volume inUse dir.nonempty dir.on done
  refine ⟨entry, reserved, made, ?_⟩
  split_ifs with fits
  · have all := room.added (fun slot member => newSlots_lengths (member : slot ∈ newSlots name attr entry))
      (by rw [length_newSlots]; exact fits)
    obtain ⟨tail, here, behind⟩ := all.slots
    rw [length_newSlots] at behind
    rw [List.append_assoc] at here
    exact ⟨tail, dir.continues all.on here all.sectors, behind⟩
  · obtain ⟨on, sectors, n, few, here⟩ := room.overflow sized (grownChain_below volume inUse) (lfnEntryCount_le short)
      (fun slot member => newSlots_lengths (member : slot ∈ newSlots name attr entry)) (length_newSlots ..)
      (by rw [length_newSlots]; exact fits)
    exact ⟨n, few, dir.continues on here sectors⟩

/-- The listing grows by just the entry of `name`, exactly when `InsertsExactly` holds before. -/
theorem insertion_exact_iff (sized : d.Sized) (volume : d.fat.Volume) (inUse : ∀ c ∈ chain, d.fat.InUse c)
    (dir : d.Directory chain items) (nonzero : ∀ b ∈ name, b ≠ 0) (short : name.length < filenameLimit)
    (added : d.fat32AddEntry fuel (chain.getD 0 0) name startCluster attr size newNode clock stack = some (.success, d', node))
    (enough : chain.length ≤ fuel') (enough' : (d.grownChain chain name).length ≤ fuel') (rounds : items.length + 1 < fuel')
    (rootdirCluster : UInt32) (stale stale' : Nat → Stale) :
    (∃ listing entry reserved, d.listDirectory rootdirCluster fuel' stale (chain.getD 0 0) = some listing ∧
      shortEntry name startCluster attr size clock reserved = some entry ∧
      d'.listDirectory rootdirCluster fuel' stale' (chain.getD 0 0) =
        some (listing ++ [d.newListed chain rootdirCluster name entry])) ↔ d.InsertsExactly chain name attr := by
  have before := dir.list sized enough (by omega) rootdirCluster stale
  have p := dir.firstFree.1
  obtain ⟨entry, reserved, made, outcome⟩ := addEntry_continues sized volume inUse dir short added
  have notMore : ∀ {e : Listed}, d'.listDirectory rootdirCluster fuel' stale' (chain.getD 0 0) =
      some (d.filesFrom chain rootdirCluster 0 items) → ¬ ∃ listing, d.listDirectory rootdirCluster fuel' stale (chain.getD 0 0) =
        some listing ∧ d'.listDirectory rootdirCluster fuel' stale' (chain.getD 0 0) = some (listing ++ [e]) := by
    rintro e after ⟨listing, old, new⟩
    cases before.symm.trans old
    have length := congrArg List.length (Option.some.inj (after.symm.trans new))
    simp at length
  by_cases fits : d.firstFree chain + (lfnEntryCount name + 1) ≤ d.slotsPerCluster * (d.grownChain chain name).length
  · rw [if_pos fits] at outcome
    obtain ⟨tail, more, behind⟩ := outcome
    have perCluster : d'.slotsPerCluster = d.slotsPerCluster := by rw [slotsPerCluster_eq, slotsPerCluster_eq, more.sectors]
    by_cases isShort : Item.Short entry.bytes
    · have valid : ∀ item ∈ items ++ [newItem name attr entry], item.Valid := by
        intro item member
        rcases List.mem_append.mp member with old | new
        · exact dir.valid item old
        · rw [List.mem_singleton.mp new]
          exact newItem_valid nonzero short made isShort
      have more' : d'.Continues d' (d.grownChain chain name) (d.grownChain chain name) (items ++ [newItem name attr entry]) tail := by
        refine ⟨more.on, ?_, rfl, more.nonempty, rfl, fun _ => rfl⟩
        rw [slotsOf_append, slotsOf_cons, newItem_slots, more.slots]
        simp [slotsOf]
      have files : d'.filesFrom (d.grownChain chain name) rootdirCluster 0 (items ++ [newItem name attr entry]) =
          d.filesFrom chain rootdirCluster 0 items ++ [d.newListed chain rootdirCluster name entry] := by
        rw [filesFrom_append, more.files, newItem, filesFrom, filesFrom, newListed, length_lfnSlots, entry.ofBytes_bytes, p,
          Nat.zero_add, clusterOf, perCluster, ← clusterOf, indexOf, perCluster, ← indexOf]
      have start := more.head
      by_cases quiet : Quiet tail
      · have after := more'.quiet (sized.congr more.sectors) valid quiet enough' (by simpa using rounds) rootdirCluster stale'
        rw [start, files] at after
        obtain ⟨kept, isEntry⟩ := (newItem_short_iff nonzero made).mp isShort
        refine ⟨fun _ => ⟨kept, isEntry, fits, fun aligned => ?_⟩, fun _ => ⟨_, entry, reserved, before, made, after⟩⟩
        rw [Behind, if_pos aligned] at behind
        rwa [behind] at quiet
      · refine ⟨?_, fun exact => absurd ?_ quiet⟩
        · rintro ⟨listing, _, _, old, _, new⟩
          cases before.symm.trans old
          rw [← start] at new
          obtain ⟨e, later, i, split, -⟩ := more'.loud (sized.congr more.sectors) valid quiet enough' (by simpa using rounds)
            rootdirCluster stale' new
          have length := congrArg List.length split
          rw [files] at length
          simp only [List.length_append, List.length_cons] at length
          omega
        · rw [Behind] at behind
          split_ifs at behind with aligned
          · rw [behind]
            exact exact.quiet aligned
          · exact behind.quiet
    · refine ⟨?_, fun exact => absurd ((newItem_short_iff nonzero made).mpr ⟨exact.kept, exact.isEntry⟩) isShort⟩
      rintro ⟨listing, entry', _, old, _, new⟩
      cases before.symm.trans old
      by_cases quiet : Quiet (newSlots name attr entry ++ tail)
      · exact absurd ⟨_, before, new⟩ (notMore (more.quiet sized dir.valid quiet enough' (by omega) rootdirCluster stale'))
      · -- whatever is listed next is at another place
        obtain ⟨e, later, i, split, ⟨slot, here, isSlot⟩, cluster, index⟩ := more.loud sized dir.valid quiet enough' (by omega)
          rootdirCluster stale' new
        have same : d.newListed chain rootdirCluster name entry' = e := (List.cons_eq_cons.mp (List.append_cancel_left split)).1
        have inside := (List.getElem?_eq_some_iff.mp here).1
        have total := congrArg List.length more.slots
        rw [length_dirSlots, perCluster, List.length_append] at total
        have place : (slotsOf items).length + i = d.firstFree chain + lfnEntryCount name := by
          rw [← same] at cluster index
          refine more.on.place_inj (by rw [perCluster]; omega) (by rw [perCluster]; omega) ?_ ?_
          · rw [← cluster, clusterOf, perCluster]
            rfl
          · rw [← index, indexOf, perCluster]
            rfl
        obtain rfl : i = lfnEntryCount name := by omega
        have last : (newSlots name attr entry ++ tail)[lfnEntryCount name]? = some entry.bytes := by
          rw [List.getElem?_append_left (by rw [length_newSlots]; omega), newSlots, List.getElem?_append_right (by rw [length_lfnSlots]),
            length_lfnSlots, Nat.sub_self]
          rfl
        cases last.symm.trans here
        exact absurd isSlot isShort
  · rw [if_neg fits] at outcome
    obtain ⟨n, few, more⟩ := outcome
    have quiet : Quiet ((newSlots name attr entry).take n) := by
      rw [newSlots, List.take_append_of_le_length (by rw [length_lfnSlots]; exact few)]
      exact quiet_of_lfn fun slot member => lfnSlots_attr (List.mem_of_mem_take member)
    refine ⟨?_, fun exact => absurd exact.fits fits⟩
    rintro ⟨listing, entry', _, old, _, new⟩
    exact absurd ⟨_, old, new⟩ (notMore (more.quiet sized dir.valid quiet enough' (by omega) rootdirCluster stale'))

def noStale : Nat → Stale := fun _ => ⟨blankNode, fun _ => 0⟩

theorem emptyVolume_directory : emptyVolume.Directory [2] [] := by
  refine ⟨emptyVolume_chain, by decide, List.forall_mem_nil _, _, rfl, ?_⟩
  intro slot head
  have first : (emptyVolume.dirSlots [2]).head? = some (List.replicate 32 0) := by decide
  cases first.symm.trans head
  rfl

theorem insertion_exact_notes : ∃ d' node entry,
    emptyVolume.fat32AddEntry 4 2 notes 5 (toFatAttr 0) 10 blankNode ⟨0, 0⟩ (fun _ => 0x41) = some (.success, d', node) ∧
      d'.listDirectory 2 4 noStale 2 = some [emptyVolume.newListed [2] 2 notes entry] := by
  obtain ⟨done, first, grown, count, perCluster, initial⟩ := emptyVolume_adds
  obtain ⟨⟨err, d', node⟩, added, success⟩ := Option.map_eq_some_iff.mp done
  cases success
  have exact : emptyVolume.InsertsExactly [2] notes (toFatAttr 0) := by
    have notDeleted : (shortName notes false).getD 0 0 ≠ 0xe5 := by
      rw [initial]
      decide
    refine ⟨notDeleted, by decide, by rw [first, count, perCluster, grown]; decide, fun aligned => ?_⟩
    rw [first, count, perCluster] at aligned
    cases aligned
  obtain ⟨listing, entry, _, before, _, after⟩ := (insertion_exact_iff ⟨by decide, by decide⟩ ⟨by decide, by decide⟩
    emptyVolume_inUse emptyVolume_directory (by simp [notes]) (by decide) added (show [2].length ≤ 4 by decide)
    (by rw [grown]; decide) (by decide) 2 noStale noStale).mpr exact
  have empty : (emptyVolume.listDirectory 2 4 noStale 2).map List.length = some 0 := by decide
  have none : listing = [] := by
    have same : emptyVolume.listDirectory 2 4 noStale 2 = some listing := before
    rw [same] at empty
    exact List.length_eq_zero_iff.mp (Option.some.inj empty)
  rw [none] at after
  exact ⟨d', node, entry, added, after⟩

theorem slotsOf_holes (l : List (List UInt8)) : slotsOf (l.map Item.hole) = l := by
  induction l with
  | nil => rfl
  | cons slot l ih => rw [List.map_cons, slotsOf_cons, ih, Item.slots, List.singleton_append]

-- Two slots are left in the directory, and the free cluster 3 is full of old entries.
def dirtyVolume : Disk :=
  ⟨⟨fun c => if c = 2 then BitVec.ofNat 32 fatEoc else 0, 3, 3, 2⟩, 1,
    fun c i => if c = 3 then 0x41 else if i % 32 = 0 ∧ i < 32 * 14 then 0xe5 else 0⟩

/-- The two slots of `notes` fill the cluster; another one is appended to the chain, and its 16 old entries are listed. -/
theorem insertion_lists_stale : dirtyVolume.Directory [2] (((dirtyVolume.dirSlots [2]).take 14).map Item.hole) ∧
    (dirtyVolume.listDirectory 2 20 noStale 2).map List.length = some 0 ∧
      ∃ d' node, dirtyVolume.fat32AddEntry 4 2 notes 5 (toFatAttr 0) 10 blankNode ⟨0, 0⟩ (fun _ => 0x41) =
        some (.success, d', node) ∧ (d'.listDirectory 2 20 noStale 2).map List.length = some 17 := by
  refine ⟨⟨⟨.singleton 2, ?_, List.nodup_singleton 2⟩, by decide, ?_, (dirtyVolume.dirSlots [2]).drop 14, ?_, ?_⟩,
    by decide, ?_⟩
  · rintro c ⟨⟩
    decide
  · have deleted : ∀ slot ∈ (dirtyVolume.dirSlots [2]).take 14, slot.getD 0 0 = 0xe5 := by decide
    intro item member
    obtain ⟨slot, inside, rfl⟩ := List.mem_map.mp member
    exact .hole (deleted slot inside)
  · rw [slotsOf_holes, List.take_append_drop]
  · intro slot head
    have first : ((dirtyVolume.dirSlots [2]).drop 14).head? = some (List.replicate 32 0) := by decide
    cases first.symm.trans head
    rfl
  · have done : (dirtyVolume.fat32AddEntry 4 2 notes 5 (toFatAttr 0) 10 blankNode ⟨0, 0⟩ fun _ => 0x41).map
        (fun r => (r.1, (r.2.1.listDirectory 2 20 noStale 2).map List.length)) = some (.success, some 17) := by
      decide +kernel
    obtain ⟨⟨err, d', node⟩, added, same⟩ := Option.map_eq_some_iff.mp done
    obtain ⟨success, listed⟩ := Prod.mk.inj same
    cases success
    exact ⟨d', node, added, listed⟩

end Disk

end Kerosene.Fat32
