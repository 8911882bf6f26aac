import Kerosene.Fat32.FileRead
import Kerosene.Ramfs.FileRead

/-!
# Seeking and reading, on both file systems
-/

namespace Kerosene.Files
open Lib Ramfs Fat32

/-- From `file_open` on, whatever was read and sought before, a seek to `q` and a read deliver the bytes from `q`
on, as long as no seek forward starts where a datanode or a cluster ends. -/
theorem seek_then_read {mode : FileMode} (readable : mode.has fileOpenRead) (noAppend : mode.has fileOpenAppend = false) (q : Nat) :
    (∀ (f : File) (content : List UInt8) (slot file : Description (Option Addr)), f.Contains content → f.size < 2 ^ 32 →
      (machine f.fileSystem File.NotFromEdge).Reaches (f.fileSystem.fileOpen slot mode) file → q ≤ content.length →
      File.NotFromEdge file.position q → SeekThenRead f.fileSystem content file q) ∧
    (∀ (d : Disk) (node : FatNode) (chain : List Nat) (slot file : Description Nat),
      OnChain d node chain → 1 ≤ d.sectorsPerCluster → node.size < 2 ^ 32 →
      (machine (d.fileSystem node) (SeeksFairly d.clusterSize)).Reaches ((d.fileSystem node).fileOpen slot mode) file →
      q ≤ node.size → SeeksFairly d.clusterSize file.position q →
      SeekThenRead (d.fileSystem node) (d.content chain node.size) file q) := by
  constructor
  · intro f content slot file contains small run inside away
    obtain ⟨nodes, chain, stored⟩ := contains.stored
    exact (File.reads chain stored contains.size small).seekThenRead (File.seeks chain stored) readable noAppend slot run
      inside away
  · intro d node chain slot file on sectors small run inside fair
    have sized : 0 < d.clusterSize := Nat.mul_pos sectors (by decide)
    have length : (d.content chain node.size).length = node.size := by rw [Disk.content, List.length_map, List.length_range]
    exact (on.reads sized small).seekThenRead (on.seeks sized) readable noAppend slot run (by rw [length]; exact inside) fair

/-! ## A file of two datanodes -/

section TwoDatanodes

-- bytes 1 in the first datanode and bytes 2 in the second
def twoDatanodes : File where
  datanode := (Datanodes.put (fun _ => none) 2 ⟨none, Vector.replicate 512 2⟩).put 1 ⟨some 2, Vector.replicate 512 1⟩
  datanodeChain := some 1
  size := 600

def twoDatanodesContent : List UInt8 := List.replicate 512 1 ++ List.replicate 88 2

theorem twoDatanodesContent_length : twoDatanodesContent.length = 600 := by
  rw [twoDatanodesContent, List.length_append, List.length_replicate, List.length_replicate]

theorem twoDatanodes_contains : twoDatanodes.Contains twoDatanodesContent := by
  refine ⟨twoDatanodesContent_length.symm, [1, 2], Datanodes.chain_cons.mpr ⟨⟨some 2, Vector.replicate 512 1⟩, rfl, rfl,
    Datanodes.chain_cons.mpr ⟨⟨none, Vector.replicate 512 2⟩, rfl, rfl, rfl, by simp⟩⟩, List.replicate 424 2, ?_⟩
  change _ = (Vector.replicate 512 (1 : UInt8)).toList ++ ((Vector.replicate 512 (2 : UInt8)).toList ++ [])
  rw [twoDatanodesContent, Vector.toList_replicate, Vector.toList_replicate, List.append_nil, List.append_assoc,
    List.replicate_append_replicate]

def reader : Description (Option Addr) := twoDatanodes.fileSystem.fileOpen ⟨0, 0, none⟩ fileOpenRead

def fatReader : Description Nat := (twoClustersDisk.fileSystem twoClustersNode).fileOpen ⟨0, 0, 0⟩ fileOpenRead

theorem seek_then_read_two_datanodes : SeekThenRead twoDatanodes.fileSystem twoDatanodesContent reader 520 ∧
    SeekThenRead (twoClustersDisk.fileSystem twoClustersNode) (twoClustersDisk.content [2, 3] 700) fatReader 520 :=
  ⟨(seek_then_read rfl rfl 520).1 twoDatanodes twoDatanodesContent ⟨0, 0, none⟩ reader twoDatanodes_contains (by decide)
      (.refl _) (by rw [twoDatanodesContent_length]; decide) fun _ => .inl rfl,
    (seek_then_read rfl rfl 520).2 twoClustersDisk twoClustersNode [2, 3] ⟨0, 0, 0⟩ fatReader twoClustersDisk_onChain
      (by decide) (by decide) (.refl _) (by decide) (seeksFairly_two_pow (k := 9) (by decide) (by decide) fun _ => .inl rfl)⟩

/-- After the first datanode was read, a seek into the second one stays in the first. -/
theorem seek_from_edge_reads_previous :
    ¬ ∀ (f : File) (content : List UInt8) (slot file : Description (Option Addr)) (mode : FileMode) (q : Nat),
      f.Contains content → f.size < 2 ^ 32 → mode.has fileOpenRead → mode.has fileOpenAppend = false →
      (machine f.fileSystem fun _ _ => True).Reaches (f.fileSystem.fileOpen slot mode) file → q ≤ content.length →
      SeekThenRead f.fileSystem content file q := by
  intro always
  have moved : step twoDatanodes.fileSystem reader (.read 512) = some ⟨fileOpenRead, 512, some 1⟩ := by
    decide +kernel
  have run : (machine twoDatanodes.fileSystem fun _ _ => True).Reaches reader ⟨fileOpenRead, 512, some 1⟩ :=
    (Machine.Reaches.refl (M := machine twoDatanodes.fileSystem fun _ _ => True) reader).snoc (i := .read 512)
      (by decide : 0 < 512) moved
  obtain ⟨file₁, sought, read⟩ := always twoDatanodes twoDatanodesContent ⟨0, 0, none⟩ _ fileOpenRead 520 twoDatanodes_contains
    (by decide) rfl rfl run (by rw [twoDatanodesContent_length]; decide)
  obtain ⟨file₂, read⟩ := read 1 Nat.one_pos (by rw [twoDatanodesContent_length]; decide)
  have wrong : (twoDatanodes.fileSystem.fileSeek ⟨fileOpenRead, 512, some 1⟩ (520 : Nat) .absolute).any (fun r =>
      (twoDatanodes.fileSystem.fileRead r.2 1).any fun r => r.2.1 == [1]) = true := by decide
  have second : (twoDatanodesContent.drop 520).take 1 = [2] := by decide +kernel
  rw [sought, Option.any_some, read, Option.any_some, second] at wrong
  exact absurd wrong (by simp)

end TwoDatanodes
end Kerosene.Files
