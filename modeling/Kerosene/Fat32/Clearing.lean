import Kerosene.Fat32.AllocationRange
import Kerosene.Fat32.Mkdir

/-!
# The `clear` of `fat32_allocate_clusters`

Its access reads the cluster. A directory that `fat32_mkdir` makes in a cluster of zeros lists `.` and `..`.
-/

namespace Kerosene.Fat32
open Lib Libc
open Ramfs (Name filenameLimit)
open Ramfs.Heap (dot dotdot dots_bytes)

namespace Disk
variable {d d' d₁ : Disk} {c fuel n start rounds : Nat} {chain touched : List Nat} {items : List Item} {name : Name} {attr : UInt8}
  {startCluster size : UInt32} {clock : Clock} {newNode node : FsNode} {stack : Int → UInt8} {new dotDir dotdotDir : Scratch}
  {flags : BitVec 32}

/-- When a call with `clear` returns a chain, the clusters of the chain are zero on the disk, and the others are as they were. -/
def Clears (d : Disk) (n : Nat) : Prop :=
  ∀ rounds start d' touched chain, d.allocateClusters rounds n true = some (start, d', touched) →
    Seg d'.fat.link (some start) chain none → (∀ c ∈ chain, d'.Zero c) ∧ ∀ c ∉ chain, d'.data c = d.data c

/-- A directory that is made lists `.` and `..` alone. -/
def ListsDots (d : Disk) (parent : Nat) (name : Name) (flags : BitVec 32) (new dotDir dotdotDir : Scratch) : Prop :=
  ∀ fuel d' node, d.fat32Mkdir fuel parent name flags new dotDir dotdotDir = some (.success, d', node) →
    ∃ rounds, ∀ fuel' ≥ rounds, ∀ rootdirCluster stale, ∃ e e', e.name = dot ∧ e'.name = dotdot ∧
      d'.listDirectory rootdirCluster fuel' stale node.startCluster.toNat = some [e, e']

/-! ## The clusters of the chain -/

theorem allocated_chain (volume : d.fat.Volume) (word : d.fat.availableClustersStart < 2 ^ 32) (clear : Bool) (pos : 1 ≤ n)
    (room : n ≤ d.beyond.fat.available.length) :
    ∃ rounds start d' touched, d.allocateClusters rounds n clear = some (start, d', touched) ∧
      Seg d'.fat.link (some start) (d.beyond.fat.available.take n) none := by
  obtain ⟨start, g, done, head, takes, -⟩ := Fat.allocate_takes volume.beyond.hint pos room
  obtain ⟨rounds, d', touched, unbounded, same⟩ := allocate_unbounded volume word pos clear done
  obtain ⟨hint, -, laid⟩ := takes.laid
  refine ⟨rounds, start, d', touched, unbounded, ?_⟩
  rw [show d'.fat.link = d'.beyond.fat.link from rfl, same, ← head]
  change Seg g.link _ _ _
  rw [laid]
  refine Fat.seg_lay d.beyond.fat takes.nodup fun c member => ?_
  exact volume.beyond.belowEoc (takes.free c member).data

theorem clears_iff_zero (volume : d.fat.Volume) (word : d.fat.availableClustersStart < 2 ^ 32) (pos : 1 ≤ n)
    (room : n ≤ d.beyond.fat.available.length) : d.Clears n ↔ ∀ c ∈ d.beyond.fat.available.take n, d.Zero c := by
  obtain ⟨rounds, start, d', touched, done, seg⟩ := allocated_chain volume word true pos room
  have kept : ∀ {rounds start d' touched}, d.allocateClusters rounds n true = some (start, d', touched) → ∀ c, d'.Zero c ↔ d.Zero c := by
    intro rounds start d' touched done c
    obtain ⟨data, sectors⟩ := allocateClusters_data done
    rw [Zero, Zero, data, clusterSize, clusterSize, sectors]
  constructor
  · intro clears c member
    exact (kept done c).mp ((clears rounds start d' touched _ done seg).1 c member)
  · intro zero rounds' start' d'' touched' chain done' seg'
    cases (allocateClusters_more (Nat.le_add_right rounds rounds') done).symm.trans
      (allocateClusters_more (Nat.le_add_left rounds' rounds) done')
    rw [seg'.unique seg]
    exact ⟨fun c member => (kept done c).mpr (zero c member), fun c _ => congrFun (allocateClusters_data done).1 c⟩

/-! ## A directory that grows by an entry -/

theorem Directory.added (sized : d.Sized) (volume : d.fat.Volume) (inUse : ∀ c ∈ chain, d.fat.InUse c) (dir : d.Directory chain items)
    (nonzero : ∀ b ∈ name, b ≠ 0) (short : name.length < filenameLimit)
    (added : d.fat32AddEntry fuel (chain.getD 0 0) name startCluster attr size newNode clock stack = some (.success, d', node))
    (kept : (shortName name (attr &&& fatAttrDirectory ≠ 0)).getD 0 0 ≠ 0xe5) (isEntry : attr ≠ 0x0f)
    (fits : d.firstFree chain + (lfnEntryCount name + 1) ≤ d.slotsPerCluster * (d.grownChain chain name).length)
    (inner : (d.firstFree chain + (lfnEntryCount name + 1)) % d.slotsPerCluster ≠ 0) :
    ∃ entry reserved, shortEntry name startCluster attr size clock reserved = some entry ∧
      d'.Directory (d.grownChain chain name) (items ++ [newItem name attr entry]) := by
  obtain ⟨entry, reserved, made, outcome⟩ := addEntry_continues sized volume inUse dir short added
  rw [if_pos fits] at outcome
  obtain ⟨tail, more, behind⟩ := outcome
  rw [Behind, if_neg inner] at behind
  refine ⟨entry, reserved, made, more.on, more.nonempty, fun item member => ?_, tail, ?_, behind⟩
  · rcases List.mem_append.mp member with old | last
    · exact dir.valid item old
    · rw [List.mem_singleton.mp last]
      exact newItem_valid nonzero short made ((newItem_short_iff nonzero made).mpr ⟨kept, isEntry⟩)
  · rw [more.slots, slotsOf_append, slotsOf_cons, newItem_slots]
    simp [slotsOf]

theorem dots_nonzero : ∀ b ∈ dot ++ dotdot, b ≠ 0 := by simp [dots_bytes]

theorem newName_dots {reserved : UInt8} {dir : FatDirectoryEntry} :
    (shortEntry dot startCluster attr size clock reserved = some dir → newName dot dir = dot) ∧
      (shortEntry dotdot startCluster attr size clock reserved = some dir → newName dotdot dir = dotdot) := by
  constructor
  · intro written
    rw [newName, if_pos lfnEntryCount_dots.1, sfnText, (shortEntry_name written).1, (shortName_dots _).1, dots_bytes.1]
    decide
  · intro written
    rw [newName, if_pos lfnEntryCount_dots.2, sfnText, (shortEntry_name written).1, (shortName_dots _).2, dots_bytes.2]
    decide

/-! ## A new directory -/

theorem mkdir_success {parent : Nat} (volume : d.fat.Volume)
    (done : d.fat32Mkdir fuel parent name flags new dotDir dotdotDir = some (.success, d', node)) :
    ∃ c g d₁ d₂ node₂ node₃, d.fat.fat32AllocateClusters 1 = some (c, g) ∧
      (d.withFat g).fat32AddEntry fuel parent name (.ofNat c) (toFatAttr flags ||| fatAttrDirectory) 0 { new.node with flags := 0 }
        new.clock new.entryName = some (.success, d₁, node) ∧
      d₁.fat32AddEntry fuel node.startCluster.toNat dot (.ofNat c) (fatAttrDirectory ||| fatAttrHidden) 0 dotDir.node dotDir.clock
        dotDir.entryName = some (.success, d₂, node₂) ∧
      d₂.fat32AddEntry fuel node.startCluster.toNat dotdot (.ofNat parent) (fatAttrDirectory ||| fatAttrHidden) 0 dotdotDir.node
        dotdotDir.clock dotdotDir.entryName = some (.success, d', node₃) := by
  obtain ⟨⟨c, g⟩, allocated, -⟩ := Option.bind_eq_some_iff.mp done
  obtain ⟨next, -, nonzero, -⟩ := allocate_first volume allocated
  rw [mkdir_eq nonzero allocated] at done
  obtain ⟨⟨err₁, d₁, node₁⟩, first, done⟩ := Option.bind_eq_some_iff.mp done
  split_ifs at done with failed
  · cases done
    exact absurd rfl failed
  · obtain ⟨⟨err₂, d₂, node₂⟩, second, done⟩ := Option.bind_eq_some_iff.mp done
    split_ifs at done with failed₂
    · cases done
      exact absurd rfl failed₂
    · obtain ⟨⟨err₃, d₃, node₃⟩, third, done⟩ := Option.bind_eq_some_iff.mp done
      split_ifs at done with failed₃
      · cases done
        exact absurd rfl failed₃
      · cases done
        obtain rfl := not_not.mp failed
        obtain rfl := not_not.mp failed₂
        obtain rfl := not_not.mp failed₃
        exact ⟨c, g, d₁, d₂, node₂, node₃, allocated, first, second, third⟩

theorem Zero.directory (sized : d.Sized) (zero : d.Zero c) (own : d.DirChain [c]) : d.Directory [c] [] :=
  ⟨own, List.cons_ne_nil c [], List.forall_mem_nil _, d.dirSlots [c], rfl, zero.stops sized⟩

section
variable (sized : d.Sized) (volume : d.fat.Volume) (inUse : ∀ c ∈ chain, d.fat.InUse c) (nonempty : chain ≠ [])
  (on : d.DirChain chain) (short : name.length < filenameLimit)
include sized volume inUse nonempty on short

theorem mkdir_lists (zero : ∀ c ∈ d.fat.available.take 1, d.Zero c) (flags : BitVec 32) (new dotDir dotdotDir : Scratch) :
    d.ListsDots (chain.getD 0 0) name flags new dotDir dotdotDir := by
  intro fuel d₃ node done
  obtain ⟨c, g, d₁, d₂, node₂, node₃, allocated, first, second, third⟩ := mkdir_success volume done
  obtain ⟨next, free, -⟩ := allocate_first volume allocated
  have made := made_of_added sized volume inUse nonempty on short allocated free first
  have sized₁ := sized.congr made.stays.sectors
  have number : (UInt32.ofNat c).toNat = c := by
    have below := volume.below (Fat.available_free (c := c) volume.hint (by rw [free]; exact List.mem_cons_self)).data
    simp only [fatBadCluster] at below
    exact UInt32.toNat_ofNat_of_lt' (show c < 2 ^ 32 by omega)
  have start : node.startCluster.toNat = c := by rw [(addEntry_node first).2.2.2, number]
  rw [start] at second third ⊢
  have zero₁ : d₁.Zero c := by
    intro i inside
    rw [clusterSize, made.stays.sectors] at inside
    rw [made.stays.data c List.mem_cons_self]
    exact zero c (by rw [free]; exact List.mem_cons_self) i inside
  have dir₁ := zero₁.directory sized₁ made.own
  have own : ∀ x ∈ [c], d₁.fat.InUse x := fun x only => List.mem_singleton.mp only ▸ made.used
  have slots := sized₁.slots
  have enters := addEntry_enters sized₁ made.volume own (List.cons_ne_nil c []) made.own length_dots.1 second
  have fits := firstFree_lt_grownChain (d := d₁) (by omega) enters.fat.enough
  have place : d₁.firstFree [c] = 0 := dir₁.firstFree.1
  obtain ⟨entry₂, reserved₂, written₂, dir₂⟩ := dir₁.added sized₁ made.volume own
    (fun b member => dots_nonzero b (List.mem_append_left _ member)) length_dots.1 second
    (by rw [(shortName_dots _).1]; decide) (by decide) (by rw [lfnEntryCount_dots.1]; exact fits)
    (by rw [lfnEntryCount_dots.1, place, Nat.mod_eq_of_lt (by omega)]; exact Nat.one_ne_zero)
  have dotted := made.dotted sized second
  have sized₂ := sized.congr dotted.sectors
  have slots₂ := sized₂.slots
  generalize d₁.grownChain [c] dot = chain₂ at dotted dir₂
  rw [← dotted.head] at third
  have enters₂ := addEntry_enters sized₂ dotted.volume dotted.inUse dotted.nonempty dotted.on length_dots.2 third
  have fits₂ := firstFree_lt_grownChain (d := d₂) (by omega) enters₂.fat.enough
  have place₂ : d₂.firstFree chain₂ = 1 := by
    rw [dir₂.firstFree.1, List.nil_append, slotsOf, List.flatMap_singleton, newItem_slots, length_newSlots, lfnEntryCount_dots.1]
  obtain ⟨entry₃, reserved₃, written₃, dir₃⟩ := dir₂.added sized₂ dotted.volume dotted.inUse
    (fun b member => dots_nonzero b (List.mem_append_right _ member)) length_dots.2 third
    (by rw [(shortName_dots _).2]; decide) (by decide) (by rw [lfnEntryCount_dots.2]; exact fits₂)
    (by rw [lfnEntryCount_dots.2, place₂, Nat.mod_eq_of_lt (by omega)]; decide)
  have head : (d₂.grownChain chain₂ dotdot).getD 0 0 = c := (grownChain_head dotted.nonempty).trans dotted.head
  refine ⟨(d₂.grownChain chain₂ dotdot).length + 3, fun fuel' enough rootdirCluster stale => ?_⟩
  have listing := dir₃.list (sized₂.congr enters₂.sectors) (show _ ≤ fuel' by omega) (show 2 < fuel' by omega) rootdirCluster stale
  rw [head] at listing
  exact ⟨_, _, newName_dots.1 written₂, newName_dots.2 written₃, listing⟩

end

-- The free cluster 3 starts with an entry of a directory that was removed.
def recycledVolume : Disk := { emptyVolume with data := fun c i => if c = 3 ∧ i < 32 then 0x41 else 0 }

end Disk

end Kerosene.Fat32
