import Kerosene.Fat32.CopiesOut
import Kerosene.Fat32.LongCopies
import Kerosene.Ramfs.CopiesIn

/-!
# Copies out of FAT32

To ramfs and to another FAT32 volume. A copy reads its source through `file_read` alone, which writes nothing to the
volume.
-/

namespace Kerosene.Fat32
open Lib Libc Files
open Ramfs (Datanodes Block Addr Name EntryGrants Heap File FileDescription ramfsTarget Writer)

variable {ds d : Disk} {node : FatNode} {chain : List Nat}

-- the volume with other bytes in its clusters
def Disk.withData (d : Disk) (data : Nat → Nat → UInt8) : Disk := { d with data := data }

theorem OnChain.withData (on : OnChain ds node chain) (data : Nat → Nat → UInt8) : OnChain (ds.withData data) node chain :=
  ⟨on.links, on.notBad, on.start, on.covers⟩

theorem OnChain.holds_any (on : OnChain ds node chain) (byte : Nat → UInt8) :
    ∃ data, ∀ i < node.size, ((ds.withData data).content chain node.size)[i]? = some (byte i) := by
  refine ⟨fun c i => byte (chain.idxOf c * ds.clusterSize + i), fun i inside => ?_⟩
  have covers := on.covers
  have index : i / ds.clusterSize < chain.length := Nat.div_lt_of_lt_mul (by rw [Nat.mul_comm]; omega)
  have place : chain.idxOf (chain.getD (i / ds.clusterSize) 0) = i / ds.clusterSize := by
    rw [List.getD_eq_getElem?_getD, List.getElem?_eq_getElem index, Option.getD_some, on.links.nodup.idxOf_getElem]
  rw [getElem?_content, if_pos inside, Disk.byteAt]
  show some (byte (chain.idxOf (chain.getD (i / ds.clusterSize) 0) * ds.clusterSize + i % ds.clusterSize)) = some (byte i)
  rw [place, Nat.div_add_mod']

/-- To ramfs every copy is right. To another FAT32 volume the copies of a file, whatever its bytes, are right if and only if the
entry fits in the directory and the file has no more than 2^31 bytes. -/
theorem universal_copy_right (on : OnChain ds node chain) (sectors : 1 ≤ ds.sectorsPerCluster) (small : node.size < 2 ^ 32)
    (srcSlot : Description Nat) :
    (∀ h s parent dir name created entry file slot given, Ramfs.IntoDir h s parent dir name created entry file →
      (Writer.opening file slot).Supplied (ds.content chain node.size) given →
      ∃ c, (ramfsTarget h s parent name created entry slot).universalCopy (ds.fileSystem node) srcSlot given = some (.success, some c) ∧
        Ramfs.HoldsCopy c dir (ds.content chain node.size)) ∧
    ∀ d dir rest fuel name scratch slot opened given, IntoDir d dir rest fuel name scratch →
      1 + d.growth dir name + node.size / d.clusterSize ≤ d.fat.available.length →
      ((∀ data, CopiesTo (dir.getD 0 0) ((ds.withData data).content chain node.size)
          ((fatTarget d fuel (dir.getD 0 0) name scratch slot opened).universalCopy ((ds.withData data).fileSystem node) srcSlot given)) ↔
        d.EntryFits dir name ∧ node.size ≤ 2 ^ 31) := by
  have sized : 0 < ds.clusterSize := Nat.mul_pos sectors (by decide)
  have reads := fun data => (on.withData data).reads sized small
  have length : ∀ data, ((ds.withData data).content chain node.size).length = node.size := fun data => length_content ..
  refine ⟨fun h s parent dir name created entry file slot given into supplied =>
    into.universalCopy (on.reads sized small) supplied srcSlot, fun d dir rest fuel name scratch slot opened given into room => ?_⟩
  constructor
  · intro right
    by_cases short : node.size ≤ 2 ^ 31
    · exact ⟨(universalCopy_fat_iff into (reads ds.data) (by rwa [length]) (by rwa [length])).mp (right ds.data), short⟩
    · obtain ⟨data, bytes⟩ := on.holds_any fun i => if i < 2 ^ 31 then 0 else 1
      refine absurd (right data) (universalCopy_fat_long into (reads data) (by rw [length]; omega) (fun i before => ?_)
        (fun b member => ?_) (by rwa [length]))
      · rw [bytes i (by omega), if_pos before]
      · obtain ⟨i, here⟩ := List.mem_iff_getElem?.mp member
        rw [List.getElem?_drop] at here
        have inside := (List.getElem?_eq_some_iff.mp here).1
        rw [length] at inside
        rw [bytes _ inside, if_neg (by omega)] at here
        exact (Option.some.inj here).symm
  · rintro ⟨fits, short⟩ data
    exact (universalCopy_fat_iff into (reads data) (by rwa [length]) (by rwa [length])).mpr fits

/-! ## A file of three bytes -/

def threeBytes : FatNode := ⟨2, true, 3⟩

theorem threeBytes_onChain : OnChain twoClustersDisk threeBytes [2, 3] :=
  ⟨twoClustersDisk_onChain.links, twoClustersDisk_onChain.notBad, fun _ => rfl, by decide⟩

def closed : Description Nat := ⟨0, 0, 0⟩

def unopenedFile : FileDescription := ⟨0, 0, none, none⟩

theorem rootHeap_into : Ramfs.IntoDir Heap.rootHeap (fun _ => none) 10 20 [97] (some (1, Writer.blank)) (Heap.allGrants 31)
    Writer.newWriter.file where
  fresh := Writer.newWriter_opened.fresh
  made := Writer.newWriter_opened.created
  unused := by
    have unused : Heap.rootHeap.Unused ((Heap.allGrants 31).blocks ++ []) := by
      refine Heap.rootHeap_unused ?_ ?_ <;> simp [EntryGrants.blocks, Heap.allGrants]
    exact unused.fresh _
  owns := by rw [Heap.chainOf, Heap.rootHeap_node]; rfl
  directory := by
    have notFull : ¬ Heap.Full [] := fun full => absurd full.2 (by decide)
    exact ⟨[20], [], Heap.rootHeap_directory, List.not_mem_nil,
      ⟨rfl, rfl, fun refused => absurd refused.1 (by decide), fun full => absurd full notFull⟩⟩

def twoBlocks : Nat → List (Datanodes.Grant Block) := fun _ => [some (2, Writer.blank), some (3, Writer.blank)]

theorem twoBlocks_supplied :
    (Writer.opening Writer.newWriter.file unopenedFile).Supplied (twoClustersDisk.content [2, 3] 3) twoBlocks := by
  intro k w inside reached
  have length : (twoClustersDisk.content [2, 3] 3).length = 3 := length_content ..
  obtain rfl : k = 0 := by omega
  cases reached
  refine ⟨⟨fun a member => ?_, by decide⟩, [(2, Writer.blank), (3, Writer.blank)], rfl, ?_⟩
  · have two : a ∈ ([2, 3] : List Addr) := member
    rcases List.mem_cons.mp two with rfl | two
    · rfl
    · rw [List.mem_singleton.mp two]
      rfl
  · have short := Target.length_piece (twoClustersDisk.content [2, 3] 3) 0
    rw [length] at short
    show (Target.piece _ 0).length / 512 + 1 ≤ 2
    omega

theorem universal_copy_right_three :
    (∃ c, (ramfsTarget Heap.rootHeap (fun _ => none) 10 [97] (some (1, Writer.blank)) (Heap.allGrants 31) unopenedFile).universalCopy
        (twoClustersDisk.fileSystem threeBytes) closed twoBlocks = some (.success, some c) ∧
      Ramfs.HoldsCopy c 20 (twoClustersDisk.content [2, 3] 3)) ∧
    CopiesTo 2 (twoClustersDisk.content [2, 3] 3)
      ((fatTarget emptyVolume 4 2 notes Disk.blankScratch unopened 0).universalCopy (twoClustersDisk.fileSystem threeBytes) closed
        fun _ => 0) := by
  obtain ⟨toRamfs, toFat⟩ := universal_copy_right threeBytes_onChain (by decide) (by decide) closed
  exact ⟨toRamfs _ _ _ _ _ _ _ _ _ _ rootHeap_into twoBlocks_supplied,
    (toFat emptyVolume [2] [] 4 notes Disk.blankScratch unopened 0 (fun _ => 0) emptyVolume_into (emptyVolume_room (by decide))).mpr
      ⟨emptyVolume_entry.1, by decide⟩ twoClustersDisk.data⟩

/-! ## A directory without room -/

-- One slot is left in the directory, and the name needs three.
def deletedVolume : Disk :=
  ⟨⟨fun c => if c = 2 then BitVec.ofNat 32 fatEoc else 0, 3, 3, 2⟩, 2,
    fun c i => if c = 2 ∧ i % 32 = 0 ∧ i < 32 * 31 then 0xe5 else 0⟩

def fourteen : Name := List.replicate 14 0x61

theorem deletedVolume_directory : deletedVolume.Directory [2] (((deletedVolume.dirSlots [2]).take 31).map Item.hole) := by
  refine ⟨⟨.singleton 2, ?_, List.nodup_singleton 2⟩, by decide, ?_, (deletedVolume.dirSlots [2]).drop 31, ?_, ?_⟩
  · rintro c ⟨⟩
    decide
  · have deleted : ∀ slot ∈ (deletedVolume.dirSlots [2]).take 31, slot.getD 0 0 = 0xe5 := by decide
    intro item member
    obtain ⟨slot, inside, rfl⟩ := List.mem_map.mp member
    exact .hole (deleted slot inside)
  · rw [Disk.slotsOf_holes, List.take_append_drop]
  · intro slot head
    have first : ((deletedVolume.dirSlots [2]).drop 31).head? = some (List.replicate 32 0) := by decide
    cases first.symm.trans head
    rfl

theorem deletedVolume_into : IntoDir deletedVolume [2] [] 4 fourteen Disk.blankScratch where
  geometry := by decide
  volume := ⟨by decide, by decide⟩
  partition := emptyVolume_partition
  nonempty := by decide
  enough := by decide
  short := by decide
  absent := by
    rw [deletedVolume_directory.finds_iff]
    rintro ⟨i, item, here, named, -⟩
    obtain ⟨slot, -, rfl⟩ := List.mem_map.mp (List.mem_of_getElem? here)
    cases named

/-- The entry of the copy lies outside the directory. -/
theorem copy_outside_directory : OnChain twoClustersDisk threeBytes [2, 3] ∧
    IntoDir deletedVolume [2] [] 4 fourteen Disk.blankScratch ∧
    1 + deletedVolume.growth [2] fourteen + 3 / deletedVolume.clusterSize ≤ deletedVolume.fat.available.length ∧
    ¬ CopiesTo 2 (twoClustersDisk.content [2, 3] 3)
      ((fatTarget deletedVolume 4 2 fourteen Disk.blankScratch unopened 0).universalCopy (twoClustersDisk.fileSystem threeBytes) closed
        fun _ => 0) := by
  have sized : 0 < twoClustersDisk.clusterSize := by decide
  have reads := threeBytes_onChain.reads sized (by decide)
  have length : (twoClustersDisk.content [2, 3] threeBytes.size).length = 3 := length_content ..
  have room : 1 + deletedVolume.growth [2] fourteen + 3 / deletedVolume.clusterSize ≤ deletedVolume.fat.available.length := by
    decide +kernel
  refine ⟨threeBytes_onChain, deletedVolume_into, room, fun right => ?_⟩
  have fits := (universalCopy_fat_iff deletedVolume_into reads (by rw [length]; decide) (by rwa [length])).mp right
  exact absurd fits (by decide +kernel)

end Kerosene.Fat32
