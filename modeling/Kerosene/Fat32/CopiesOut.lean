import Kerosene.Fat32.CopiedFile
import Kerosene.Fat32.Mkdir
import Kerosene.Ramfs.Builds

/-!
# Copies out of ramfs
-/

namespace Kerosene.Fat32
open Lib Libc Files
open Ramfs (Datanodes Block File FileMode Writer WriteCall Name FileDescription ramfsDatanodeSize fileOpenWrite fileOpenAppend)
open Ramfs.Writer (Opened machine last)

-- `RHEAP_MAX_SIZE`
def rheapMaxSize : Nat := 0x1000000

variable {d : Disk} {fuel : Nat} {name : Name} {scratch : Scratch} {slot : FatDescription} {opened : Int} {given : Nat → Int}
  {chain : List Nat} {rest : List (List Nat)} {f : File} {nodes : List Ramfs.Addr}

theorem copied_eq_iff (linked : f.datanode.Chain f.datanodeChain nodes) (some : 0 < nodes.length) (covers : f.size ≤ 512 * nodes.length) :
    (f.datanode.bytes nodes).take f.size = Target.copied f nodes ↔ nodes.length = f.size / 512 + 1 := by
  have length := Ramfs.Datanodes.bytes_length linked.allocated
  have whole := Nat.div_add_mod f.size 512
  have part := Nat.mod_lt f.size (show 0 < 512 by decide)
  constructor
  · intro same
    have sizes := congrArg List.length same
    rw [Target.copied, List.length_take, List.length_take, length] at sizes
    omega
  · intro exact_
    rw [Target.copied, exact_, Nat.add_sub_cancel, whole]

theorem ramfsUniversalCopy_iff (linked : f.datanode.Chain f.datanodeChain nodes) (some : 0 < nodes.length)
    (covers : f.size ≤ 512 * nodes.length) (heap : ramfsDatanodeSize * nodes.length ≤ rheapMaxSize)
    (into : IntoDir d chain rest fuel name scratch)
    (room : 1 + d.growth chain name + max f.size (Target.copied f nodes).length / d.clusterSize ≤ d.fat.available.length) :
    CopiesTo (chain.getD 0 0) ((f.datanode.bytes nodes).take f.size)
      ((fatTarget d fuel (chain.getD 0 0) name scratch slot opened).ramfsUniversalCopy f given) ↔
    d.EntryFits chain name ∧ nodes.length = f.size / 512 + 1 := by
  have heap : 512 * nodes.length ≤ 0x1000000 := heap
  have length := Ramfs.Datanodes.bytes_length linked.allocated
  have small : max f.size (Target.copied f nodes).length ≤ 2 ^ 31 := by
    rw [Target.copied, List.length_take, length]
    omega
  have inside := (min_le_right (512 * nodes.length) (Target.copied f nodes).length).trans (le_max_right f.size _)
  obtain ⟨s, s₁, d', node, dir, rest', created, open_, new, filling⟩ :=
    into.starts _ fileOpenWrite room (by decide) (by decide) slot opened
  have takes : (fatTarget d fuel (chain.getD 0 0) name scratch slot opened).Takes given (Target.copied f nodes) nodes.length
      fun k s => Filling d' node (dir :: rest') _ s ((Target.copied f nodes).take (512 * k)) := fatTarget_takes small inside
  obtain ⟨k, s₂, whole, filled, done⟩ := takes.ramfsUniversalCopy linked created open_ filling
  rw [List.take_of_length_le whole] at filled
  obtain ⟨s₃, synced, right⟩ := filled.sync new into.head fuel scratch slot opened
  rw [done, synced, Option.map_some, ← copied_eq_iff linked some covers, ← right]
  constructor
  · rintro ⟨_, ⟨⟩, holds⟩
    exact holds
  · exact fun holds => ⟨s₃, rfl, holds⟩

/-! ## After writes through one descriptor -/

/-- After any writes through one descriptor, the copy is right if and only if its entry fits and the chain is no datanode
longer or shorter than the size says. While no write fails, it is so unless the size is a multiple of 512 and the last
write was shorter. -/
theorem written_copy_iff {s : Datanodes Block} {grant : Datanodes.Grant Block} {start w : Writer} {Allowed : WriteCall → Prop}
    (created : Opened s grant start) (run : (machine Allowed).Reaches start w) :
    ∃ nodes, w.file.datanode.Chain w.file.datanodeChain nodes ∧
      (w.failures = 0 → (w.file.datanode.bytes nodes).take w.file.size = w.log.flatten ∧
        (nodes.length = w.file.size / 512 + 1 ↔ w.file.size = 0 ∨ ¬ 512 ∣ w.file.size ∨ 512 ≤ last w.log)) ∧
      (ramfsDatanodeSize * nodes.length ≤ rheapMaxSize → ∀ d chain rest fuel name scratch slot opened given,
        IntoDir d chain rest fuel name scratch →
        1 + d.growth chain name + max w.file.size (Target.copied w.file nodes).length / d.clusterSize ≤ d.fat.available.length →
        (CopiesTo (chain.getD 0 0) ((w.file.datanode.bytes nodes).take w.file.size)
            ((fatTarget d fuel (chain.getD 0 0) name scratch slot opened).ramfsUniversalCopy w.file given) ↔
          d.EntryFits chain name ∧ nodes.length = w.file.size / 512 + 1)) := by
  obtain ⟨nodes, j, built⟩ := Writer.built_of_reaches created run
  obtain ⟨_, _, here⟩ := built.here
  have inside := (List.getElem?_eq_some_iff.mp here).1
  have covers := built.covers
  refine ⟨nodes, built.chain, fun none => ?_, fun heap d chain rest fuel name scratch slot opened given into room =>
    ramfsUniversalCopy_iff built.chain (Nat.zero_lt_of_lt inside) (by omega) heap into room⟩
  have clean := built.clean none
  have length := clean.length
  constructor
  · rw [clean.size]
    exact (List.prefix_iff_eq_take.mp clean.stored).symm
  · have part := Writer.last_le w.log
    rw [← clean.size] at part
    split_ifs at length with spare <;> omega

/-! ## Copies to an empty volume -/

theorem emptyVolume_partition : emptyVolume.fat.Partition [[2]] := by
  refine ⟨fun l listed => ?_, by decide, fun c => ⟨fun member => emptyVolume_inUse c member, fun used => ?_⟩⟩
  · cases List.mem_singleton.mp listed
    exact ⟨rfl, show emptyVolume.fat.link 2 = none by decide⟩
  · by_contra outside
    have other : c ≠ 2 := by simpa using outside
    apply used.notFree
    simp [Fat.getFatEntry, emptyVolume, other, fatFreeCluster]

theorem emptyVolume_into : IntoDir emptyVolume [2] [] 4 notes Disk.blankScratch where
  geometry := by decide
  volume := ⟨by decide, by decide⟩
  partition := emptyVolume_partition
  nonempty := by decide
  enough := by decide
  short := by decide
  absent := by
    rw [Disk.emptyVolume_directory.finds_iff]
    rintro ⟨i, item, none, -⟩
    cases none

theorem emptyVolume_entry : emptyVolume.EntryFits [2] notes ∧ emptyVolume.growth [2] notes = 0 := by
  obtain ⟨_, first, grown, count, perCluster, _⟩ := emptyVolume_adds
  constructor
  · rw [Disk.EntryFits, first, count, perCluster, grown]
    decide
  · rw [Disk.growth, first, count, perCluster]
    decide

def unopened : FatDescription := ⟨0, 0, 0, 0⟩

theorem emptyVolume_room {size : Nat} (small : size < 1024) :
    1 + emptyVolume.growth [2] notes + size / emptyVolume.clusterSize ≤ emptyVolume.fat.available.length := by
  have available : emptyVolume.fat.available.length = 2 := by decide
  have clusterSize : emptyVolume.clusterSize = 512 := rfl
  rw [emptyVolume_entry.2, available, clusterSize]
  omega

def twoWrites : Writer := Writer.after (Writer.after Writer.newWriter Writer.longWrite) Writer.shortWrite

/-- Writes of 512 and of 3 bytes are copied. -/
theorem written_copy_two : ∃ nodes, twoWrites.file.datanode.Chain twoWrites.file.datanodeChain nodes ∧
    (twoWrites.file.datanode.bytes nodes).take twoWrites.file.size = twoWrites.log.flatten ∧
    CopiesTo 2 ((twoWrites.file.datanode.bytes nodes).take twoWrites.file.size)
      ((fatTarget emptyVolume 4 2 notes Disk.blankScratch unopened 0).ramfsUniversalCopy twoWrites.file fun _ => 0) := by
  obtain ⟨nodes, linked, clean, copies⟩ := written_copy_iff (w := twoWrites) Writer.newWriter_opened Writer.twoWrites_reaches
  have size : twoWrites.file.size = 515 := by
    rw [twoWrites]
    exact Writer.twoWrites_run.2.2.2
  obtain ⟨stored, long⟩ := clean (Writer.no_failures Writer.newWriter_opened Writer.twoWrites_reaches)
  have cut : ¬ 512 ∣ twoWrites.file.size := by
    rw [size]
    decide
  have length := long.mpr (.inr (.inl cut))
  have length' : nodes.length = 515 / 512 + 1 := by rwa [size] at length
  have copied : (Target.copied twoWrites.file nodes).length ≤ 515 := by
    rw [Target.copied, length', size]
    exact (List.length_take_le ..).trans (by decide)
  have heap : ramfsDatanodeSize * nodes.length ≤ rheapMaxSize := by
    rw [length']
    show 512 * (515 / 512 + 1) ≤ 0x1000000
    omega
  refine ⟨nodes, linked, stored, ?_⟩
  refine (copies heap emptyVolume [2] [] 4 notes Disk.blankScratch unopened 0 (fun _ => 0) emptyVolume_into
    (emptyVolume_room (Nat.max_lt.mpr ⟨?_, copied.trans_lt (by decide)⟩))).mpr ⟨emptyVolume_entry.1, length⟩
  show twoWrites.file.size < 1024
  rw [size]
  decide

/-! ## A multiple of 512 -/

def halfWrite : WriteCall := ⟨List.replicate 256 1, []⟩

def twoHalves : Writer := Writer.after (Writer.after Writer.newWriter halfWrite) halfWrite

theorem twoHalves_run : (Writer.newWriter.step halfWrite).isSome ∧
    ((Writer.after Writer.newWriter halfWrite).step halfWrite).isSome ∧ twoHalves.failures = 0 ∧ twoHalves.file.size = 512 ∧
    last twoHalves.log = 256 := by
  decide +kernel

theorem twoHalves_reaches : (machine fun _ => True).Reaches Writer.newWriter twoHalves := by
  have fresh : ∀ w : Writer, w.file.datanode.Fresh halfWrite.grants := fun w =>
    ⟨fun a none => (List.not_mem_nil (show a ∈ ([] : List Ramfs.Addr) from none)).elim, List.nodup_nil⟩
  have nonempty : halfWrite.buffer ≠ [] := List.cons_ne_nil 1 (List.replicate 255 1)
  have first := (Lib.Machine.Reaches.refl (M := machine fun _ => True) Writer.newWriter).snoc ⟨nonempty, fresh _, trivial⟩
    (Writer.step_after twoHalves_run.1)
  exact first.snoc ⟨nonempty, fresh _, trivial⟩ (Writer.step_after twoHalves_run.2.1)

/-- Of two writes of 256 bytes nothing is copied. -/
theorem halves_not_copied : Opened (fun _ => none) (some (1, Writer.blank)) Writer.newWriter ∧
    (machine fun _ => True).Reaches Writer.newWriter twoHalves ∧ twoHalves.log.flatten.length = 512 ∧
    IntoDir emptyVolume [2] [] 4 notes Disk.blankScratch ∧
    1 + emptyVolume.growth [2] notes + 512 / emptyVolume.clusterSize ≤ emptyVolume.fat.available.length ∧
    ¬ CopiesTo 2 twoHalves.log.flatten
      ((fatTarget emptyVolume 4 2 notes Disk.blankScratch unopened 0).ramfsUniversalCopy twoHalves.file fun _ => 0) := by
  obtain ⟨nodes, j, built⟩ := Writer.built_of_reaches Writer.newWriter_opened twoHalves_reaches
  obtain ⟨_, _, none, size, short⟩ := twoHalves_run
  have clean := built.clean none
  have length : nodes.length = 1 := by
    have := clean.length
    rw [size, short] at this
    exact this
  have stored := List.prefix_iff_eq_take.mp clean.stored
  rw [← clean.size] at stored
  have copied : (Target.copied twoHalves.file nodes).length ≤ 512 := by
    rw [Target.copied, length, size]
    exact (List.length_take_le ..).trans (by decide)
  have heap : ramfsDatanodeSize * nodes.length ≤ rheapMaxSize := by
    rw [length]
    show 512 * 1 ≤ 0x1000000
    omega
  refine ⟨Writer.newWriter_opened, twoHalves_reaches, by rw [← clean.size, size], emptyVolume_into, emptyVolume_room (by decide), ?_⟩
  rw [stored]
  intro right
  have both := (ramfsUniversalCopy_iff built.chain (by omega) (by rw [size, length]) heap emptyVolume_into
    (emptyVolume_room (Nat.max_lt.mpr ⟨by rw [size]; decide, copied.trans_lt (by decide)⟩))).mp right
  rw [length, size] at both
  exact absurd both.2 (by decide)

end Kerosene.Fat32
