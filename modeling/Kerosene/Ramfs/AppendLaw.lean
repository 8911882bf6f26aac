import Kerosene.Ramfs.Builds

/-!
# Appending to a file that was written and closed

`ramfs_file_open` takes the last datanode of the chain for an append, and `ramfs_file_write` the offset
in it from the size. A spare datanode behind the last byte separates the two.
-/

namespace Kerosene.Ramfs
open Lib

namespace File
variable {f : File} {content : List UInt8} {nodes : List Addr}

def appendMode : FileMode := fileOpenWrite ||| fileOpenAppend

/-- Opened again with `FILE_OPEN_WRITE` and `FILE_OPEN_APPEND`, the file takes any buffer behind its content. -/
def Appends (f : File) (content : List UInt8) : Prop :=
  ∀ (slot d : FileDescription) (buffer : List UInt8) (given : List (Addr × Datanode Block)),
    f.fileOpen slot appendMode = some d → buffer ≠ [] → f.datanode.Fresh (given.map some) →
    buffer.length / ramfsDatanodeSize + 1 ≤ given.length →
    ∃ r, f.fileWrite d buffer (given.map some) = some r ∧ r.err = .success ∧ r.actual = buffer.length ∧
      r.file.Contains (content ++ buffer)

/-- The chain ends with the datanode of the last byte, or with the first one when the file is empty. -/
def NoSpare (f : File) : Prop := f.datanode.nth ((f.size - 1) / ramfsDatanodeSize + 1) f.datanodeChain = none

instance (f : File) : Decidable f.NoSpare :=
  inferInstanceAs (Decidable (f.datanode.nth ((f.size - 1) / ramfsDatanodeSize + 1) f.datanodeChain = none))

def Full (f : File) : Prop := ∀ a, (f.datanode a).isSome

theorem noSpare_iff (chain : f.datanode.Chain f.datanodeChain nodes) (size : (f.size - 1) / 512 < nodes.length) :
    f.NoSpare ↔ nodes.length = (f.size - 1) / 512 + 1 := by
  have blockSize : ramfsDatanodeSize = 512 := rfl
  rw [NoSpare, chain.nth, List.getElem?_eq_none_iff, blockSize]
  omega

theorem appends_of_noSpare (contains : f.Contains content) (chain : f.datanode.Chain f.datanodeChain nodes)
    (size : (f.size - 1) / 512 < nodes.length) (noSpare : f.NoSpare) : f.Appends content := by
  intro slot d buffer given opened nonempty fresh enough
  have used := (noSpare_iff chain size).mp noSpare
  have tail := fileOpen_atTail chain used rfl opened
  obtain ⟨mode, -⟩ := fileOpen_spec chain rfl opened
  have appends : d.mode.has fileOpenAppend := by rw [mode]; rfl
  have writes : d.mode.has fileOpenWrite := by rw [mode]; rfl
  have covers : f.size ≤ 512 * ((f.size - 1) / 512 + 1) := by omega
  have points : Writer.Points ⟨f, d, [], 0⟩ nodes ((f.size - 1) / 512) := by
    refine ⟨⟨writes, fun noAppend => ?_⟩, chain, ⟨nodes[(f.size - 1) / 512], ?_, List.getElem?_eq_getElem size⟩, covers⟩
    · rw [appends] at noAppend
      cases noAppend
    · rw [pointer, if_pos appends, tail, chain.nth]
      exact List.getElem?_eq_getElem size
  have granted : Writer.Granted ⟨buffer, given.map some⟩ := ⟨given, rfl, enough⟩
  obtain ⟨r, done, success, actual⟩ := points.fileWrite nonempty fresh granted
  obtain ⟨wrote, -⟩ := fileWrite_append contains tail fresh nonempty writes appends done success
  exact ⟨r, done, success, actual, wrote⟩

theorem fileOpen_append (slot : FileDescription) (chain : f.datanode.Chain f.datanodeChain nodes) :
    ∃ d, f.fileOpen slot appendMode = some d := by
  have last := ramfsGetLastDatanodeOfChain_chain chain
  have append : appendMode.has fileOpenAppend := rfl
  simp only [fileOpen, ramfsFileOpen, append, last, if_true, Option.bind_eq_bind, Option.bind_some]
  exact ⟨_, rfl⟩

theorem fileWrite_spare {slot d : FileDescription} {byte : UInt8} {given : List (Addr × Datanode Block)} {r : WriteResult}
    (chain : f.datanode.Chain f.datanodeChain nodes) (spare : (f.size - 1) / 512 + 1 < nodes.length)
    (opened : f.fileOpen slot appendMode = some d) (fresh : f.datanode.Fresh (given.map some)) (one : given.length = 1)
    (done : f.fileWrite d [byte] (given.map some) = some r) :
    ∃ nodes', r.file.datanode.Chain r.file.datanodeChain nodes' ∧
      (r.file.datanode.bytes nodes')[f.size]? = (f.datanode.bytes nodes)[f.size]? := by
  have blockSize : ramfsDatanodeSize = 512 := rfl
  obtain ⟨position, small⟩ := dataOffsetOf_spec f.size
  rw [blockSize] at position
  obtain ⟨mode, last⟩ := fileOpen_spec chain rfl opened
  have there : nodes[nodes.length - 1]? = some nodes[nodes.length - 1] := List.getElem?_eq_getElem (by omega)
  have append : d.mode.has fileOpenAppend := by rw [mode]; rfl
  have here : pointer d = some nodes[nodes.length - 1] := by
    rw [pointer, if_pos append, last, List.getLast?_eq_getElem?, there]
  have atEnd : f.WritesAtEnd d := by
    refine ⟨by rw [mode]; rfl, fun noAppend => ?_⟩
    rw [append] at noAppend
    cases noAppend
  have holds : Cursor.Holds ⟨f.datanode, nodes[nodes.length - 1], given.map some⟩ f.datanodeChain nodes (nodes.length - 1)
      (f.datanode.bytes nodes) :=
    Cursor.At.holds ⟨chain, there, List.nil_prefix, fresh⟩ rfl
  have nonempty : [byte] ≠ [] := List.cons_ne_nil _ _
  have enough : [byte].length / 512 + 1 ≤ given.length := by rw [one, List.length_singleton]
  obtain ⟨c, nodes', j', base, wrote, cut, holds'⟩ := holds.writeFile rfl small nonempty rfl enough
  rw [atEnd.fileWrite here, wrote, Option.map_some, Option.some.injEq] at done
  have length := Datanodes.bytes_length chain.allocated
  refine ⟨nodes', by rw [← done, wrote_file]; exact holds'.chain, ?_⟩
  rw [← done, wrote_file]
  dsimp only
  rw [holds'.bytes_eq]
  cases cut with
  | lost extra news positive =>
      rw [List.length_singleton] at positive
      omega
  | kept extra few =>
      rw [getElem?_splice_eq (by rw [List.length_append]; omega), if_neg (by omega),
        List.getElem?_append_left (by omega)]

-- no block is left to grant
theorem appends_of_full (full : f.Full) : f.Appends content := by
  intro slot d buffer given _ _ fresh enough
  cases given with
  | nil => cases enough
  | cons block rest =>
      have unused := fresh.unused block.1 List.mem_cons_self
      have used := full block.1
      rw [unused] at used
      cases used

theorem noSpare_of_appends (chain : f.datanode.Chain f.datanodeChain nodes) (contains : f.Contains content)
    (size : (f.size - 1) / 512 < nodes.length) (appends : f.Appends content) : f.NoSpare ∨ f.Full := by
  by_contra neither
  rw [not_or, noSpare_iff chain size] at neither
  obtain ⟨spare, room⟩ := neither
  obtain ⟨block, free⟩ : ∃ a, f.datanode a = none := by
    rw [Full, not_forall] at room
    obtain ⟨a, free⟩ := room
    exact ⟨a, Option.not_isSome_iff_eq_none.mp free⟩
  have length := Datanodes.bytes_length chain.allocated
  have behind : f.size < (f.datanode.bytes nodes).length := by omega
  generalize old : (f.datanode.bytes nodes)[f.size] = byte
  obtain ⟨d, opened⟩ := fileOpen_append ⟨0#16, 0, none, none⟩ chain
  have fresh : f.datanode.Fresh ([(block, ⟨none, Vector.replicate 512 0⟩)].map some) :=
    ⟨fun a member => by rw [List.mem_singleton.mp member, free], List.nodup_singleton block⟩
  have one : [(block, (⟨none, Vector.replicate 512 0⟩ : Datanode Block))].length = 1 := List.length_singleton
  generalize [(block, (⟨none, Vector.replicate 512 0⟩ : Datanode Block))] = given at fresh one
  -- a byte other than the one that is there
  have enough : [byte + 1].length / ramfsDatanodeSize + 1 ≤ given.length := by
    rw [one, List.length_singleton]
    decide
  obtain ⟨r, done, -, -, contains'⟩ := appends _ d [byte + 1] given opened (List.cons_ne_nil _ _) fresh enough
  obtain ⟨nodes', chain', kept⟩ := fileWrite_spare chain (by omega) opened fresh one done
  obtain ⟨nodes'', chain'', stored⟩ := contains'.stored
  obtain rfl := chain'.links.unique chain''.links
  have atSize : (content ++ [byte + 1])[f.size]? = some (byte + 1) := by
    rw [contains.size, List.getElem?_concat_length]
  obtain ⟨bound, same⟩ := List.getElem?_eq_some_iff.mp atSize
  rw [List.prefix_iff_getElem?.mp stored _ bound, same, List.getElem?_eq_getElem behind, old, Option.some.injEq] at kept
  grind

end File

/-! ## Files built by one descriptor -/

namespace Writer
open File
variable {w start : Writer} {s : Datanodes Block} {grant : Datanodes.Grant Block}

theorem Clean.noSpare_iff {nodes : List Addr} {j : Nat} (points : w.Points nodes j) (clean : w.Clean nodes j) :
    w.file.NoSpare ↔ ¬ (512 ∣ w.file.size ∧ 512 ≤ last w.log) := by
  have length := clean.length
  rw [File.noSpare_iff points.chain (by omega), length]
  split_ifs with spare <;> simp [spare]

/-- A file that one descriptor built appends what is written to it later when its chain has no spare
datanode. A build without a failed write leaves one when it ends on the edge of a datanode and its last
write was a datanode long. -/
theorem appends_after_close (opened : Opened s grant start) (run : (machine fun _ => True).Reaches start w) :
    ∃ content, w.file.Contains content ∧ (w.file.Appends content ↔ w.file.NoSpare ∨ w.file.Full) ∧
      (w.failures = 0 → content = w.log.flatten ∧ (w.file.NoSpare ↔ ¬ (512 ∣ w.file.size ∧ 512 ≤ last w.log))) := by
  obtain ⟨nodes, j, built⟩ := built_of_reaches opened run
  obtain ⟨at_, -, here⟩ := built.here
  have inside := (List.getElem?_eq_some_iff.mp here).1
  have covers := built.covers
  have size : (w.file.size - 1) / 512 < nodes.length := by omega
  have length := Datanodes.bytes_length built.chain.allocated
  have contains : w.file.Contains ((w.file.datanode.bytes nodes).take w.file.size) := by
    refine ⟨?_, nodes, built.chain, List.take_prefix _ _⟩
    rw [List.length_take]
    omega
  refine ⟨_, contains, ⟨noSpare_of_appends built.chain contains size, fun either => ?_⟩, fun none => ?_⟩
  · rcases either with noSpare | full
    · exact appends_of_noSpare contains built.chain size noSpare
    · exact appends_of_full full
  · have clean := built.clean none
    refine ⟨?_, clean.noSpare_iff built.toPoints⟩
    rw [clean.size]
    exact (List.prefix_iff_eq_take.mp clean.stored).symm

/-! ## One write of a whole datanode -/

section WholeDatanode

theorem longWrite_reaches : (machine fun _ => True).Reaches newWriter (after newWriter longWrite) :=
  (Machine.Reaches.refl (M := machine fun _ => True) newWriter).snoc ⟨longWrite_nonempty, longWrite_fresh, trivial⟩
    (step_after twoWrites_run.1)

theorem longWrite_fills : (after newWriter longWrite).failures = 0 ∧ ¬(after newWriter longWrite).file.NoSpare ∧
    ((after newWriter longWrite).file.datanode 9).isNone ∧ (after (after newWriter longWrite) shortWrite).file.NoSpare := by
  decide +kernel

theorem appends_after_close_short_write :
    ∃ content, (after (after newWriter longWrite) shortWrite).file.Contains content ∧
      (after (after newWriter longWrite) shortWrite).file.Appends content := by
  have run := longWrite_reaches.snoc (i := shortWrite) ⟨by simp [shortWrite], shortWrite_fresh, trivial⟩
    (step_after twoWrites_run.2.2.1)
  obtain ⟨content, contains, law, -⟩ := appends_after_close newWriter_opened run
  exact ⟨content, contains, law.mpr (Or.inl longWrite_fills.2.2.2)⟩

/-- The byte appended to 512 bytes is at place 1024. -/
theorem append_skips_datanode :
    ¬ ∀ (s : Datanodes Block) (grant : Datanodes.Grant Block) (start w : Writer) (content : List UInt8),
      Opened s grant start → (machine fun _ => True).Reaches start w → w.file.Contains content → w.file.Appends content := by
  intro always
  obtain ⟨none, spare, free, _⟩ := longWrite_fills
  obtain ⟨nodes, j, built⟩ := built_of_reaches newWriter_opened longWrite_reaches
  obtain ⟨at_, -, here⟩ := built.here
  have covers := built.covers
  have inside := (List.getElem?_eq_some_iff.mp here).1
  have clean := built.clean none
  have contains : (after newWriter longWrite).file.Contains (after newWriter longWrite).log.flatten :=
    ⟨clean.size, nodes, built.chain, clean.stored⟩
  have appends := always _ _ _ _ _ newWriter_opened longWrite_reaches contains
  rcases noSpare_of_appends built.chain contains (by omega) appends with noSpare | full
  · exact absurd noSpare spare
  · have used := full 9
    rw [Option.isNone_iff_eq_none.mp free] at used
    cases used

end WholeDatanode
end Writer
end Kerosene.Ramfs
