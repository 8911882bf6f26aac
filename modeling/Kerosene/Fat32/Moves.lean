import Kerosene.Fat32.KeptListings
import Kerosene.Fat32.Removal

/-!
# Moved entries

`fat32_node_move` adds an entry for the clusters that the node has, and removes the old one without its content.
-/

namespace Kerosene.Fat32
open Lib
open Ramfs (Name filenameLimit)
open Ramfs.Heap (dot dotdot dots_bytes)
variable {name oldName : Name} {attr : UInt8} {items before after : List Item} {long : List (List UInt8)} {short : List UInt8}

inductive MoveErr
  | success
  | adding (err : DirErr)
  | removing (err : RemoveErr)
deriving DecidableEq

theorem Fat.Partition.apart {f : Fat} {chain l : List Nat} {rest : List (List Nat)} (part : f.Partition (chain :: rest))
    (volume : f.Volume)
    (listed : l ∈ rest) : ∀ x ∈ l, (x ∉ chain ∧ x ∉ f.available) ∧ x < fatEoc := by
  intro x member
  have inRest := List.mem_flatten_of_mem listed member
  have used : f.InUse x := (part.covers x).mp (List.mem_append_right _ inRest)
  refine ⟨⟨fun both => ?_, fun free => used.notFree' (Fat.available_free volume.hint free)⟩, (volume.below used.data).trans (by decide)⟩
  exact (List.nodup_append'.mp part.nodup).2.2 both inRest

namespace Disk

-- An entry that was added stays when the old one is not removed.
def fat32NodeMove (d : Disk) (fuel oldParent newParent : Nat) (node : FsNode) (newName : Name) (new : Scratch) (stack : Int → UInt8) :
    Option (MoveErr × Disk × FsNode) := do
  let (err, d, copied) ← d.fat32AddEntry fuel newParent newName node.startCluster (toFatAttr node.flags) node.size new.node new.clock
    new.entryName
  if err ≠ .success then return (.adding err, d, node)
  let (err, d) ← d.fat32RemoveEntry fuel oldParent node false stack
  if err ≠ .success then return (.removing err, d, node)
  return (.success, d, copied)

variable {d d₁ d₂ d' : Disk} {chain chain₂ : List Nat} {node copied newNode : FsNode} {new : Scratch} {fuel fuel' : Nat}
  {startCluster size : UInt32} {clock : Clock} {stack : Int → UInt8}

theorem nodeMove_success {oldParent newParent : Nat}
    (added : d.fat32AddEntry fuel newParent name node.startCluster (toFatAttr node.flags) node.size new.node new.clock new.entryName =
      some (.success, d₁, copied))
    (removed : d₁.fat32RemoveEntry fuel oldParent node false stack = some (.success, d')) :
    d.fat32NodeMove fuel oldParent newParent node name new stack = some (.success, d', copied) := by
  rw [fat32NodeMove, added]
  change (d₁.fat32RemoveEntry fuel oldParent node false stack).bind _ = _
  rw [removed]
  rfl

/-! ## The directory with the new entry -/

/-- The new entry is one that is listed, all its slots fit, and when they end with a cluster, what follows is marked free. -/
structure InsertsCleanly (d : Disk) (chain : List Nat) (name : Name) (isDir : Bool) : Prop where
  kept : (shortName name isDir).getD 0 0 ≠ 0xe5
  fits : d.EntryFits chain name
  stops : (d.firstFree chain + (lfnEntryCount name + 1)) % d.slotsPerCluster = 0 →
    Stops ((d.dirSlots (d.grownChain chain name)).drop (d.firstFree chain + (lfnEntryCount name + 1)))

theorem addEntry_directory (sized : d.Sized) (volume : d.fat.Volume) (inUse : ∀ c ∈ chain, d.fat.InUse c)
    (dir : d.Directory chain items) (nonzero : ∀ b ∈ name, b ≠ 0) (few : name.length < filenameLimit) (isEntry : attr ≠ 0x0f)
    (clean : d.InsertsCleanly chain name (attr &&& fatAttrDirectory ≠ 0))
    (added : d.fat32AddEntry fuel (chain.getD 0 0) name startCluster attr size newNode clock stack = some (.success, d', node)) :
    ∃ entry reserved, shortEntry name startCluster attr size clock reserved = some entry ∧
      d'.Directory (d.grownChain chain name) (items ++ [newItem name attr entry]) ∧
      ∀ rootdirCluster, d'.filesFrom (d.grownChain chain name) rootdirCluster 0 (items ++ [newItem name attr entry]) =
        d.filesFrom chain rootdirCluster 0 items ++ [d.newListed chain rootdirCluster name entry] := by
  have p := dir.firstFree.1
  obtain ⟨entry, reserved, made, outcome⟩ := addEntry_continues sized volume inUse dir few added
  have fits : d.firstFree chain + (lfnEntryCount name + 1) ≤ d.slotsPerCluster * (d.grownChain chain name).length := clean.fits
  rw [if_pos fits] at outcome
  obtain ⟨tail, more, behind⟩ := outcome
  have perCluster : d'.slotsPerCluster = d.slotsPerCluster := by rw [slotsPerCluster_eq, slotsPerCluster_eq, more.sectors]
  have isShort := (newItem_short_iff nonzero made).mpr ⟨clean.kept, isEntry⟩
  refine ⟨entry, reserved, made, ⟨more.on, more.nonempty, ?_, tail, ?_, ?_⟩, fun rootdirCluster => ?_⟩
  · intro item member
    rcases List.mem_append.mp member with old | added
    · exact dir.valid item old
    · rw [List.mem_singleton.mp added]
      exact newItem_valid nonzero few made isShort
  · rw [slotsOf_append, slotsOf_cons, newItem_slots, more.slots]
    simp [slotsOf]
  · rw [Behind] at behind
    split_ifs at behind with aligned
    · rw [behind]
      exact clean.stops aligned
    · exact behind
  · rw [filesFrom_append, more.files, newItem, filesFrom, filesFrom, newListed, length_lfnSlots, entry.ofBytes_bytes, p,
      Nat.zero_add, clusterOf, perCluster, ← clusterOf, indexOf, perCluster, ← indexOf]

theorem toFatAttr_entry (flags : BitVec 32) : toFatAttr flags ≠ 0x0f := by
  rw [toFatAttr]
  split_ifs <;> decide

/-- The entry that stands for a moved node. -/
structure StandsFor (node copied : FsNode) (name : Name) (e : Listed) : Prop where
  place : e.At copied
  size : e.size = node.size
  flags : e.flags = toFsNodeFlags (toFatAttr node.flags)
  startCluster : e.startCluster = node.startCluster
  name : EqualIgnoringCase e.name name ↔ Spelled name (toFatAttr node.flags &&& fatAttrDirectory ≠ 0)

theorem newListed_stands {entry : FatDirectoryEntry} {reserved : UInt8} (nonempty : name ≠ []) (nonzero : ∀ b ∈ name, b ≠ 0)
    (notDots : name ≠ dot ∧ name ≠ dotdot) (used : node.startCluster ≠ 0)
    (made : shortEntry name node.startCluster (toFatAttr node.flags) node.size clock reserved = some entry)
    (cluster : copied.parentCluster = d.clusterOf (d.grownChain chain name) (d.firstFree chain + lfnEntryCount name))
    (index : copied.parentClusterIndex = d.indexOf (d.firstFree chain + lfnEntryCount name)) (rootdirCluster : UInt32) :
    StandsFor node copied name (d.newListed chain rootdirCluster name entry) := by
  obtain ⟨-, attrs, sameSize, -, -⟩ := shortEntry_name made
  obtain ⟨-, -, first⟩ := shortEntry_ofBytes made
  refine ⟨⟨cluster.symm, index.symm⟩, sameSize, congrArg toFsNodeFlags attrs, ?_, newName_spelled nonempty nonzero notDots made⟩
  rw [newListed, Item.listed, first]
  exact if_neg fun both => used both.1

/-- After the call the directory on `chain` has the clusters `grown`, and one item more, which stands for `node`. -/
structure Gains (d d₁ : Disk) (chain grown : List Nat) (items : List Item) (item : Item) (node copied : FsNode) (name : Name) :
    Prop where
  volume : d₁.fat.Volume
  sectors : d₁.sectorsPerCluster = d.sectorsPerCluster
  head : grown.head? = chain.head?
  length : grown.length ≤ chain.length + d.fat.available.length
  inside : ∀ x ∈ grown, x ∈ chain ∨ x ∈ d.fat.available
  places : ∀ q < (slotsOf items).length, d₁.clusterOf grown q = d.clusterOf chain q
  directory : d₁.Directory grown (items ++ [item])
  files : ∀ rootdirCluster, ∃ e, d₁.filesFrom grown rootdirCluster 0 (items ++ [item]) = d.filesFrom chain rootdirCluster 0 items ++ [e] ∧
    StandsFor node copied name e
  stays : ∀ l : List Nat, (∀ x ∈ l, x ∉ chain ∧ x ∉ d.fat.available) → (∀ x ∈ l, x < fatEoc) →
    d.Stays d₁ l ∧ ∀ x ∈ l, d₁.fat.entry x = d.fat.entry x

section
variable {rest : List (List Nat)} (sized : d.Sized) (volume : d.fat.Volume) (nonempty : name ≠ []) (nonzero : ∀ b ∈ name, b ≠ 0)
  (notDots : name ≠ dot ∧ name ≠ dotdot) (few : name.length < filenameLimit) (used : node.startCluster ≠ 0)
include sized volume nonempty nonzero notDots few used

theorem addEntry_gains (part : d.fat.Partition (chain :: rest)) (dir : d.Directory chain items)
    (absent : ¬ d.Finds chain name new.entryName) (room : d.growth chain name ≤ d.fat.available.length)
    (clean : d.InsertsCleanly chain name (toFatAttr node.flags &&& fatAttrDirectory ≠ 0)) (enough : chain.length < fuel) :
    ∃ d₁ copied item lost, d.fat32AddEntry fuel (chain.getD 0 0) name node.startCluster (toFatAttr node.flags) node.size new.node
        new.clock new.entryName = some (.success, d₁, copied) ∧ copied.startCluster = node.startCluster ∧
      d.Gains d₁ chain (d.grownChain chain name) items item node copied name ∧
      d₁.fat.Partition (d.grownChain chain name :: (lost ++ rest)) := by
  have inUse : ∀ c ∈ chain, d.fat.InUse c := fun c member => part.member member
  obtain ⟨d₁, copied, added⟩ := addEntry_succeeds sized volume inUse dir.nonempty dir.on enough absent room node.startCluster
    (toFatAttr node.flags) node.size new.node new.clock
  have enters := addEntry_enters sized volume inUse dir.nonempty dir.on few added
  obtain ⟨⟨lost, part₁⟩, -⟩ := addEntry_place sized volume part dir.nonempty few added
  obtain ⟨entry, reserved, made, dir₁, files⟩ := addEntry_directory sized volume inUse dir nonzero few (toFatAttr_entry _) clean added
  obtain ⟨cluster, index⟩ := (addEntry_at sized volume inUse dir.nonempty dir.on few added).1 clean.fits
  have perCluster : d₁.slotsPerCluster = d.slotsPerCluster := by rw [slotsPerCluster_eq, slotsPerCluster_eq, enters.sectors]
  have long : (d.grownChain chain name).length ≤ chain.length + d.fat.available.length :=
    length_grownChain_le.trans (Nat.add_le_add_left room _)
  have head : (d.grownChain chain name).head? = chain.head? := by
    obtain ⟨c, cs, rfl⟩ := List.exists_cons_of_ne_nil dir.nonempty
    rw [grownChain]
    split_ifs <;> rfl
  have places : ∀ q < (slotsOf items).length, d₁.clusterOf (d.grownChain chain name) q = d.clusterOf chain q := by
    intro q before
    rw [clusterOf, perCluster, ← clusterOf]
    exact grownChain_clusterOf (by rwa [dir.firstFree.1])
  exact ⟨d₁, copied, _, lost, added, (addEntry_node added).2.2.2, ⟨enters.fat.volume volume, enters.sectors, head, long,
    fun x member => mem_grownChain member, places, dir₁,
    fun rootdirCluster => ⟨_, files rootdirCluster, newListed_stands nonempty nonzero notDots used made cluster index rootdirCluster⟩,
    fun l apart small => enters.stays apart small⟩, part₁⟩

end

/-! ## Renaming -/

section
variable {rest : List (List Nat)} (sized : d.Sized) (volume : d.fat.Volume) (nonempty : name ≠ []) (nonzero : ∀ b ∈ name, b ≠ 0)
  (notDots : name ≠ dot ∧ name ≠ dotdot) (few : name.length < filenameLimit) (used : node.startCluster ≠ 0)
  (names : d.Names chain node ((slotsOf before).length + long.length) long.length)
  (dir : d.Directory chain (before ++ .file oldName long short :: after))
  (two : long.length ≤ ((slotsOf before).length + long.length) % d.slotsPerCluster + d.slotsPerCluster)
include sized volume nonempty nonzero notDots few used names dir two

/-- Moving an entry in its own directory takes it from its place and lists it at the end, under the new name. -/
theorem rename_exact (part : d.fat.Partition (chain :: rest)) (absent : ¬ d.Finds chain name new.entryName)
    (room : d.growth chain name ≤ d.fat.available.length)
    (clean : d.InsertsCleanly chain name (toFatAttr node.flags &&& fatAttrDirectory ≠ 0))
    (enough : chain.length + d.fat.available.length < fuel)
    (enough' : d.slotsPerCluster * (chain.length + d.fat.available.length) < fuel') (stack : Int → UInt8) (rootdirCluster : UInt32)
    (stale stale' : Nat → Stale) :
    ∃ d' copied chain' lost old renamed left right,
      d.fat32NodeMove fuel (chain.getD 0 0) (chain.getD 0 0) node name new stack = some (.success, d', copied) ∧
      d'.fat.Partition (chain' :: (lost ++ rest)) ∧ chain'.head? = chain.head? ∧ (∀ l ∈ rest, d.Stays d' l) ∧
      d.listDirectory rootdirCluster fuel' stale (chain.getD 0 0) = some (left ++ old :: right) ∧ old.At node ∧
      d'.listDirectory rootdirCluster fuel' stale' (chain.getD 0 0) = some (left ++ right ++ [renamed]) ∧
      copied.startCluster = node.startCluster ∧ StandsFor node copied name renamed := by
  have slots := sized.slots
  obtain ⟨d₁, copied, item, lost, added, start, gains, part₁⟩ := addEntry_gains sized volume nonempty nonzero notDots few used part
    dir absent room clean (show chain.length < fuel by omega)
  have perCluster : d₁.slotsPerCluster = d.slotsPerCluster := by rw [slotsPerCluster_eq, slotsPerCluster_eq, gains.sectors]
  have head : (d.grownChain chain name).getD 0 0 = chain.getD 0 0 := grownChain_head dir.nonempty
  have whole := gains.directory
  rw [List.append_assoc, List.cons_append] at whole
  have owns : Owns d₁.fat (d.grownChain chain name) := ⟨part₁.links _ List.mem_cons_self, fun c member => part₁.member member⟩
  have inside : (slotsOf before).length + long.length < (slotsOf (before ++ .file oldName long short :: after)).length := by
    rw [slotsOf_append, slotsOf_cons, List.length_append, List.length_append, length_slots_file]
    omega
  have names₁ : d₁.Names (d.grownChain chain name) node ((slotsOf before).length + long.length) long.length := by
    refine ⟨names.cluster.trans (gains.places _ inside).symm, names.index.trans ?_, names.counts⟩
    rw [indexOf, indexOf, perCluster]
  obtain ⟨d', chain', removed, loses⟩ := whole.removed gains.volume owns names₁ (by rwa [perCluster])
    (fun none => absurd none (by simp)) (gains.length.trans enough.le) stack
  rw [head] at removed
  -- what is listed before and after
  have bound : d₁.slotsPerCluster * (d.grownChain chain name).length < fuel' := by
    rw [perCluster]
    exact (Nat.mul_le_mul_left _ gains.length).trans_lt enough'
  have after' := loses.listing (sized.congr gains.sectors) bound rootdirCluster stale'
  have wide : d.slotsPerCluster * chain.length < fuel' := (Nat.mul_le_mul_left _ (Nat.le_add_right ..)).trans_lt enough'
  have clusters : chain.length ≤ d.slotsPerCluster * chain.length := Nat.le_mul_of_pos_left _ (by omega)
  have before' := dir.list sized (clusters.trans wide.le) (dir.items_few.trans_lt wide) rootdirCluster stale
  rw [filesFrom_append, filesFrom, Nat.zero_add] at before'
  obtain ⟨renamed, files, stands⟩ := gains.files rootdirCluster
  have front : d₁.filesFrom (d.grownChain chain name) rootdirCluster 0 before = d.filesFrom chain rootdirCluster 0 before := by
    refine filesFrom_congr perCluster (n := d.firstFree chain) (fun q before => grownChain_clusterOf before) ?_ rootdirCluster
    rw [dir.firstFree.1, Nat.zero_add]
    omega
  rw [List.append_assoc, List.cons_append, filesFrom_append, front, filesFrom_append before (.file oldName long short :: after) d,
    filesFrom, filesFrom, Nat.zero_add, List.append_assoc, List.cons_append] at files
  have later := (List.cons_eq_cons.mp (List.append_cancel_left files)).2
  rw [later, front, head, ← List.append_assoc] at after'
  refine ⟨d', copied, chain', lost, _, renamed, _, _, nodeMove_success added removed,
    loses.shrinks.fat.partition loses.shrinks.front part₁, ?_, fun l member => ?_, before', ⟨names.cluster.symm, names.index.symm⟩,
    after', start, stands⟩
  · rw [← gains.head]
    obtain ⟨c, cs, same⟩ := List.exists_cons_of_ne_nil loses.shrinks.nonempty
    obtain ⟨more, whole⟩ := loses.shrinks.front
    rw [← whole, same]
    rfl
  · have apart := part.apart volume member
    obtain ⟨stays, -⟩ := gains.stays l (fun x on => (apart x on).1) fun x on => (apart x on).2
    refine stays.trans ⟨loses.shrinks.sectors, fun x on => loses.shrinks.others x fun grown => ?_⟩
    rcases gains.inside x grown with old | free
    · exact (apart x on).1.1 old
    · exact (apart x on).1.2 free

/-- Moving an entry to another directory takes it out of the one and lists it at the end of the other, under the new name. -/
theorem move_exact (part : d.fat.Partition (chain :: chain₂ :: rest)) (dir₂ : d.Directory chain₂ items)
    (notLone : after = [] → ¬ d.LoneHole chain (slotsOf before).length) (absent : ¬ d.Finds chain₂ name new.entryName)
    (room : d.growth chain₂ name ≤ d.fat.available.length)
    (clean : d.InsertsCleanly chain₂ name (toFatAttr node.flags &&& fatAttrDirectory ≠ 0))
    (enough : chain.length ≤ fuel) (enough₂ : chain₂.length < fuel) (wide : d.slotsPerCluster * chain.length < fuel')
    (wide₂ : d.slotsPerCluster * (chain₂.length + d.fat.available.length) < fuel') (stack : Int → UInt8) (rootdirCluster : UInt32)
    (stale stale' stale₂ stale₂' : Nat → Stale) :
    ∃ d' copied chain' chain₂' lost old moved left right listing,
      d.fat32NodeMove fuel (chain.getD 0 0) (chain₂.getD 0 0) node name new stack = some (.success, d', copied) ∧
      d'.fat.Partition (chain' :: chain₂' :: (lost ++ rest)) ∧ chain' <+: chain ∧ chain₂'.head? = chain₂.head? ∧
      (∀ l ∈ rest, d.Stays d' l) ∧
      d.listDirectory rootdirCluster fuel' stale (chain.getD 0 0) = some (left ++ old :: right) ∧ old.At node ∧
      d'.listDirectory rootdirCluster fuel' stale' (chain.getD 0 0) = some (left ++ right) ∧
      d.listDirectory rootdirCluster fuel' stale₂ (chain₂.getD 0 0) = some listing ∧
      d'.listDirectory rootdirCluster fuel' stale₂' (chain₂.getD 0 0) = some (listing ++ [moved]) ∧
      copied.startCluster = node.startCluster ∧ StandsFor node copied name moved := by
  have slots := sized.slots
  have swapped := part.perm (List.Perm.swap chain₂ chain rest)
  obtain ⟨d₁, copied, item, lost, added, start, gains, part₁⟩ := addEntry_gains sized volume nonempty nonzero notDots few used swapped
    dir₂ absent room clean enough₂
  have perCluster : d₁.slotsPerCluster = d.slotsPerCluster := by rw [slotsPerCluster_eq, slotsPerCluster_eq, gains.sectors]
  have head : (d.grownChain chain₂ name).getD 0 0 = chain₂.getD 0 0 := grownChain_head dir₂.nonempty
  -- the old directory is as it was
  have old := swapped.apart volume (List.mem_cons_self (a := chain))
  obtain ⟨stays, entries⟩ := gains.stays chain (fun x on => (old x on).1) fun x on => (old x on).2
  have dir₁ : d₁.Directory chain (before ++ .file oldName long short :: after) := by
    obtain ⟨tail, dirSlots, stops⟩ := dir.slots
    exact ⟨dir.on.kept entries, dir.nonempty, dir.valid, tail, by rw [stays.slots, dirSlots], stops⟩
  have part₂ : d₁.fat.Partition (chain :: d.grownChain chain₂ name :: (lost ++ rest)) :=
    part₁.perm ((List.Perm.cons _ List.perm_middle).trans (List.Perm.swap ..))
  have owns : Owns d₁.fat chain := ⟨part₂.links _ List.mem_cons_self, fun c member => part₂.member member⟩
  have clusters : ∀ q, d₁.clusterOf chain q = d.clusterOf chain q := fun q => by rw [clusterOf, clusterOf, perCluster]
  have names₁ : d₁.Names chain node ((slotsOf before).length + long.length) long.length :=
    ⟨names.cluster.trans (clusters _).symm, names.index.trans (by rw [indexOf, indexOf, perCluster]), names.counts⟩
  have inside := dir.place_inside
  have lone : after = [] → ¬ d₁.LoneHole chain (slotsOf before).length := fun last isLone =>
    notLone last (isLone.congr perCluster fun i before => by
      rw [firstByte, firstByte, clusters, indexOf, indexOf, perCluster, stays.data _ (clusterOf_mem (by omega))])
  obtain ⟨d', chain', removed, loses⟩ := dir₁.removed gains.volume owns names₁ (by rwa [perCluster]) lone enough stack
  have files : ∀ p items, d₁.filesFrom chain rootdirCluster p items = d.filesFrom chain rootdirCluster p items :=
    fun p items => filesFrom_congr perCluster (fun q _ => rfl) le_rfl rootdirCluster
  have after' := loses.listing (sized.congr gains.sectors) (by rwa [perCluster]) rootdirCluster stale'
  rw [files, files] at after'
  have small : chain.length ≤ d.slotsPerCluster * chain.length := Nat.le_mul_of_pos_left _ (by omega)
  have before' := dir.list sized (small.trans wide.le) (dir.items_few.trans_lt wide) rootdirCluster stale
  rw [filesFrom_append, filesFrom, Nat.zero_add] at before'
  -- the new directory is not touched by the removal
  have apart : ∀ x ∈ d.grownChain chain₂ name, x ∉ chain := by
    intro x member
    rcases gains.inside x member with there | free
    · exact fun here => (old x here).1.1 there
    · exact fun here => (old x here).1.2 free
  have kept : d₁.Stays d' (d.grownChain chain₂ name) := ⟨loses.shrinks.sectors, fun x member => loses.shrinks.others x (apart x member)⟩
  have sized₁ := sized.congr gains.sectors
  have bound : d.slotsPerCluster * (d.grownChain chain₂ name).length < fuel' :=
    (Nat.mul_le_mul_left _ gains.length).trans_lt wide₂
  have short : (d.grownChain chain₂ name).length ≤ d.slotsPerCluster * (d.grownChain chain₂ name).length :=
    Nat.le_mul_of_pos_left _ (by omega)
  have gained := gains.directory.list sized₁ (short.trans bound.le)
    (gains.directory.items_few.trans_lt (by rwa [perCluster])) rootdirCluster stale₂'
  have same := kept.listing sized₁ gains.directory.on (fun x member => loses.shrinks.fat.entries x (apart x member))
    gains.directory.nonempty (short.trans bound.le) rootdirCluster stale₂'
  obtain ⟨moved, newFiles, stands⟩ := gains.files rootdirCluster
  rw [← same, newFiles, head] at gained
  have bound₂ : d.slotsPerCluster * chain₂.length < fuel' := (Nat.mul_le_mul_left _ (Nat.le_add_right ..)).trans_lt wide₂
  have short₂ : chain₂.length ≤ d.slotsPerCluster * chain₂.length := Nat.le_mul_of_pos_left _ (by omega)
  have listed := dir₂.list sized (short₂.trans bound₂.le) (dir₂.items_few.trans_lt bound₂) rootdirCluster stale₂
  refine ⟨d', copied, chain', d.grownChain chain₂ name, lost, _, moved, _, _, _, nodeMove_success added removed,
    loses.shrinks.fat.partition loses.shrinks.front part₂, loses.shrinks.front, gains.head, fun l member => ?_, before',
    ⟨names.cluster.symm, names.index.symm⟩, after', listed, gained, start, stands⟩
  have others := swapped.apart volume (List.mem_cons_of_mem _ member)
  obtain ⟨staysL, -⟩ := gains.stays l (fun x on => (others x on).1) fun x on => (others x on).2
  refine staysL.trans ⟨loses.shrinks.sectors, fun x on => loses.shrinks.others x ?_⟩
  exact (part.apart volume (List.mem_cons_of_mem _ member) x on).1.1

end

-- `NOTES`, a file in cluster 3, in the directory of cluster 2, and an empty directory in cluster 4
def twoDirectories : Disk :=
  ⟨⟨fun c => if c = 2 ∨ c = 3 ∨ c = 4 then BitVec.ofNat 32 fatEoc else 0, 3, 2, 0⟩, 1,
    fun c i => if c = 2 then shortSlot.getD i 0 else 0⟩

def log : Name := [0x4c, 0x4f, 0x47]

theorem log_notDots : log ≠ dot ∧ log ≠ dotdot := by simp [log, dots_bytes]

theorem twoDirectories_partition : twoDirectories.fat.Partition [[2], [4], [3]] := by
  have ends : ∀ c ∈ [2, 4, 3], twoDirectories.fat.link c = none := by decide
  refine ⟨?_, by decide, fun c => ?_⟩
  · simpa using ends
  · have inUse : ∀ c ∈ [2, 4, 3], twoDirectories.fat.InUse c := by
      intro c member
      have cases : c = 2 ∨ c = 4 ∨ c = 3 := by simpa using member
      rcases cases with rfl | rfl | rfl <;> exact ⟨⟨by decide, by decide⟩, by decide, by decide⟩
    refine ⟨inUse c, fun used => ?_⟩
    by_contra outside
    have others : c ≠ 2 ∧ c ≠ 4 ∧ c ≠ 3 := by simpa using outside
    have zero : twoDirectories.fat.entry c = 0 := if_neg (by omega)
    refine used.notFree ?_
    rw [Fat.getFatEntry, zero]
    rfl

theorem twoDirectories_owns (c : Nat) (member : [c] ∈ [[2], [4], [3]]) : Owns twoDirectories.fat [c] :=
  ⟨twoDirectories_partition.links _ member, fun x on =>
    (twoDirectories_partition.covers x).mp (List.mem_flatten_of_mem member on)⟩

theorem twoDirectories_first :
    twoDirectories.Directory [2] ([] ++ .file (sfnText (.ofBytes shortSlot)) [] shortSlot :: []) := by
  refine ⟨(twoDirectories_owns 2 (by decide)).dirChain ⟨by decide, by decide⟩, by decide, ?_,
    (twoDirectories.dirSlots [2]).drop 1, ?_, ?_⟩
  · intro item member
    rw [List.mem_singleton.mp member]
    exact .file ⟨by decide, by decide, by decide⟩ (.short (by decide +kernel))
  · have first : (twoDirectories.dirSlots [2]).take 1 = [shortSlot] := by decide
    exact (List.take_append_drop 1 _).symm.trans (congrArg (· ++ _) first)
  · intro slot head
    have second : ((twoDirectories.dirSlots [2]).drop 1).head? = some (List.replicate 32 0) := by decide
    cases second.symm.trans head
    rfl

theorem twoDirectories_second : twoDirectories.Directory [4] [] := by
  refine ⟨(twoDirectories_owns 4 (by decide)).dirChain ⟨by decide, by decide⟩, by decide, List.forall_mem_nil _, _, rfl, ?_⟩
  intro slot head
  have first : (twoDirectories.dirSlots [4]).head? = some (List.replicate 32 0) := by decide
  cases first.symm.trans head
  rfl

theorem log_absent : ¬ twoDirectories.Finds [2] log blankScratch.entryName ∧ ¬ twoDirectories.Finds [4] log blankScratch.entryName := by
  rw [twoDirectories_first.finds_iff, twoDirectories_second.finds_iff]
  constructor
  · rw [List.nil_append, hit_cons]
    rintro (⟨-, same⟩ | ⟨i, item, none, -⟩)
    · have other : sameIgnoringCase (Item.write blankScratch.entryName
          (.file (sfnText (.ofBytes shortSlot)) [] shortSlot)) 0 log = false := by decide +kernel
      rw [other] at same
      cases same
    · cases none
  · rintro ⟨i, item, none, -⟩
    cases none

theorem log_clean : twoDirectories.InsertsCleanly [2] log (toFatAttr shortNode.flags &&& fatAttrDirectory ≠ 0) ∧
    twoDirectories.InsertsCleanly [4] log (toFatAttr shortNode.flags &&& fatAttrDirectory ≠ 0) := by
  have facts : (shortName log (toFatAttr shortNode.flags &&& fatAttrDirectory ≠ 0)).getD 0 0 ≠ 0xe5 ∧
      twoDirectories.EntryFits [2] log ∧ twoDirectories.EntryFits [4] log ∧
      (twoDirectories.firstFree [2] + (lfnEntryCount log + 1)) % twoDirectories.slotsPerCluster ≠ 0 ∧
      (twoDirectories.firstFree [4] + (lfnEntryCount log + 1)) % twoDirectories.slotsPerCluster ≠ 0 := by decide +kernel
  obtain ⟨kept, fits, fits', inside, inside'⟩ := facts
  exact ⟨⟨kept, fits, fun aligned => absurd aligned inside⟩, ⟨kept, fits', fun aligned => absurd aligned inside'⟩⟩

theorem shortNode_names : twoDirectories.Names [2] shortNode 0 0 := ⟨by decide, by decide, by decide +kernel⟩

theorem rename_exact_notes : ∃ d' copied chain' lost old renamed left right,
    twoDirectories.fat32NodeMove 9 2 2 shortNode log blankScratch (fun _ => 0) = some (.success, d', copied) ∧
      d'.fat.Partition (chain' :: (lost ++ [[4], [3]])) ∧ chain'.head? = some 2 ∧ (∀ l ∈ [[4], [3]], twoDirectories.Stays d' l) ∧
      twoDirectories.listDirectory 2 99 noStale 2 = some (left ++ old :: right) ∧ old.At shortNode ∧
      d'.listDirectory 2 99 noStale 2 = some (left ++ right ++ [renamed]) ∧ copied.startCluster = 3 ∧
      StandsFor shortNode copied log renamed :=
  rename_exact ⟨by decide, by decide⟩ ⟨by decide, by decide⟩ (by decide) (by decide +kernel) log_notDots (by decide) (by decide)
    shortNode_names twoDirectories_first (by decide) twoDirectories_partition log_absent.1 (by decide +kernel) log_clean.1
    (by decide +kernel) (by decide +kernel) (fun _ => 0) 2 noStale noStale

theorem move_exact_notes : ∃ d' copied chain' chain₂' lost old moved left right listing,
    twoDirectories.fat32NodeMove 9 2 4 shortNode log blankScratch (fun _ => 0) = some (.success, d', copied) ∧
      d'.fat.Partition (chain' :: chain₂' :: (lost ++ [[3]])) ∧ chain' <+: [2] ∧ chain₂'.head? = some 4 ∧
      (∀ l ∈ [[3]], twoDirectories.Stays d' l) ∧
      twoDirectories.listDirectory 2 99 noStale 2 = some (left ++ old :: right) ∧ old.At shortNode ∧
      d'.listDirectory 2 99 noStale 2 = some (left ++ right) ∧ twoDirectories.listDirectory 2 99 noStale 4 = some listing ∧
      d'.listDirectory 2 99 noStale 4 = some (listing ++ [moved]) ∧ copied.startCluster = 3 ∧ StandsFor shortNode copied log moved :=
  move_exact ⟨by decide, by decide⟩ ⟨by decide, by decide⟩ (by decide) (by decide +kernel) log_notDots (by decide) (by decide)
    shortNode_names twoDirectories_first (by decide) twoDirectories_partition twoDirectories_second
    (fun _ lone => absurd lone.1 (by decide)) log_absent.2 (by decide +kernel) log_clean.2 (by decide) (by decide)
    (by decide +kernel) (by decide +kernel) (fun _ => 0) 2 noStale noStale noStale noStale

end Disk
end Kerosene.Fat32
